import CartLua.Grammar.Basic

/-!
# The state of a match

A match moves a cursor through a fixed text.  Besides the cursor the state holds
what diagnostics need (the rules being matched and the furthest failure), what
captures need (the anchors and the end of the last token), and a value that an
observer keeps along the way.
-/

namespace CartLua

/-- A rule that has matched, as an observer sees it. -/
structure Capture where
  rule : String
  start : Int
  stop : Int
  tokenEnd : Int
  /-- Where the rule itself began; this differs from `start` for anchored rules. -/
  ruleStart : Int
  deriving DecidableEq, Repr, Inhabited

/-- A capture of a span.  The end of its last token is kept inside the span. -/
def Capture.ofSpan (rule : String) (start stop tokenEnd ruleStart : Int) : Capture where
  rule := rule
  start := start
  stop := stop
  tokenEnd := max start (min tokenEnd stop)
  ruleStart := ruleStart

/-- What follows a match: it is told of every rule that matches and of every
return to an earlier offset. -/
structure Observer (σ : Type) where
  onMatch : String → Option (Capture → σ → σ)
  onReturn : Nat → σ → σ

def Observer.idle (σ : Type) : Observer σ where
  onMatch _ := none
  onReturn _ value := value

inductive Fault
  /-- A committed part did not match.  The offset and the rules around it are
  those of the furthest failure. -/
  | mismatch (expected : Option String) (offset : Nat) (context : List String)
  | unclosedBracket (level offset : Nat) (context : List String)
  deriving DecidableEq, Repr, Inhabited

namespace Fault

def offset : Fault → Nat
  | mismatch _ offset _ => offset
  | unclosedBracket _ offset _ => offset

/-- The rules around the fault, outermost first. -/
def context : Fault → List String
  | mismatch _ _ context => context
  | unclosedBracket _ _ context => context

end Fault

structure State (σ : Type) where
  offset : Nat
  tokenEnd : Nat
  /-- The names of the rules being matched, innermost first. -/
  ruleStack : List String
  /-- The beginnings of the anchors being matched, innermost first. -/
  anchors : List Nat
  /-- The furthest offset of a failure that counts. -/
  furthest : Nat
  furthestStack : List String
  /-- How many padding rules are being matched.  Only zero is told apart. -/
  padding : Int
  /-- How many quiet rules and lookaheads are being matched. -/
  quiet : Int
  predicates : Int
  observed : σ
  deriving Repr

namespace State

variable {σ : Type}

def initial (observed : σ) : State σ where
  offset := 0
  tokenEnd := 0
  ruleStack := []
  anchors := []
  furthest := 0
  furthestStack := []
  padding := 0
  quiet := 0
  predicates := 0
  observed := observed

/-- Put the cursor at an offset.  Outside padding this ends a token. -/
def moveTo (st : State σ) (offset : Nat) : State σ :=
  { st with
    offset := offset
    tokenEnd := if st.padding = 0 then offset else st.tokenEnd }

def advance (st : State σ) (count : Nat) : State σ := st.moveTo (st.offset + count)

/-- Note a failure at the cursor, if it lies further than all before it and is
not part of a lookahead. -/
def noteFailure (st : State σ) : State σ :=
  if st.predicates = 0 && decide (st.furthest < st.offset) then
    { st with furthest := st.offset, furthestStack := st.ruleStack }
  else st

/-- Return to the cursor of an earlier state, and tell the observer. -/
def returnTo (st : State σ) (observer : Observer σ) (origin : State σ) : State σ :=
  { st with
    offset := origin.offset
    tokenEnd := origin.tokenEnd
    observed := observer.onReturn origin.offset st.observed }

def enter (st : State σ) (rule : Rule) : State σ :=
  { st with
    ruleStack := rule.name :: st.ruleStack
    padding := if rule.padding then st.padding + 1 else st.padding
    quiet := if rule.quiet then st.quiet + 1 else st.quiet
    anchors := if rule.anchor then st.offset :: st.anchors else st.anchors }

/-- The state after a rule, whether it matched or not. -/
def leave (st : State σ) (rule : Rule) : State σ :=
  { st with
    ruleStack := st.ruleStack.tail
    padding := if rule.padding then st.padding - 1 else st.padding
    quiet := if rule.quiet then st.quiet - 1 else st.quiet
    anchors := if rule.anchor then st.anchors.tail else st.anchors }

def enterLookahead (st : State σ) : State σ :=
  { st with quiet := st.quiet + 1, predicates := st.predicates + 1 }

def leaveLookahead (st : State σ) : State σ :=
  { st with quiet := st.quiet - 1, predicates := st.predicates - 1 }

/-- What a rule that began at `begin` and ends at the cursor captures. -/
def capture (st : State σ) (rule : Rule) (begin : Nat) : Capture :=
  let start := if rule.anchored then st.anchors.headD begin else begin
  Capture.ofSpan rule.name start st.offset st.tokenEnd begin

/-- Tell the observer of a rule that began at `begin` and has matched, unless the
match is quiet. -/
def announce (st : State σ) (observer : Observer σ) (rule : Rule) (begin : Nat) : State σ :=
  if st.quiet = 0 then
    match observer.onMatch rule.name with
    | some act => { st with observed := act (st.capture rule begin) st.observed }
    | none => st
  else st

/-- The fault of a committed part that fails at the cursor: it is reported at the
furthest failure, unless the cursor has passed that. -/
def mismatch (st : State σ) (expected : Option String) : Fault :=
  if st.offset ≤ st.furthest then
    .mismatch expected st.furthest st.furthestStack.reverse
  else .mismatch expected st.offset st.ruleStack.reverse

def unclosedBracket (st : State σ) (level offset : Nat) : Fault :=
  .unclosedBracket level offset st.ruleStack.reverse

end State

end CartLua
