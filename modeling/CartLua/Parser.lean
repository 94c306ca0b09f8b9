import CartLua.Grammar.Analysis
import CartLua.Journal
import CartLua.Matching.Run
import CartLua.ParseError

/-!
# Parsers

A parser applies a checked grammar to sources.  It produces no tree: callers learn
about a text through the observer that they attach.
-/

namespace CartLua

/-- Why there is no result for a text. -/
inductive Failure
  | parse (error : ParseError)
  | unknownRule (name : String)
  /-- A reference was matched before the grammar was linked. -/
  | unlinked (name : String)
  /-- A loop goes on for ever.  The self-check refuses grammars that have one. -/
  | endless
  deriving DecidableEq, Repr, Inhabited

/-- The number of active patterns that is allowed whatever the limit says. -/
def leastNesting : Nat := 1000

def usualNestingLimit : Int := 8000

/-- A grammar that has passed its self-check, and the limit of active patterns. -/
structure Parser where
  grammar : Grammar
  nestingLimit : Int
  grammar_checked : grammar.checked = true

structure Parsed where
  filename : String
  grammar : String
  rule : String
  consumed : Nat
  complete : Bool
  deriving DecidableEq, Repr, Inhabited

namespace Parser

variable {σ : Type}

/-- The parser of a grammar, which is checked first if that has not been done. -/
def ofGrammar (grammar : Grammar) (nestingLimit : Int) : Except GrammarError Parser :=
  if hchecked : grammar.checked = true then .ok ⟨grammar, nestingLimit, hchecked⟩
  else
    match grammar.check with
    | .error e => .error e
    | .ok checked => .ok ⟨checked.1, nestingLimit, checked.2⟩

/-- How many patterns may be active at the same time. -/
def depth (p : Parser) : Nat := max leastNesting p.nestingLimit.toNat

def run (p : Parser) (observer : Observer σ) (start : σ) (rule : String) (source : Source) :
    Outcome σ :=
  Matching.run ⟨source.text, p.grammar.rule?, p.grammar.isLinked, observer⟩ p.depth (.rule rule)
    (State.initial start)

def failureOf (p : Parser) (source : Source) (st : State σ) : Stop → Failure
  | .fault fault => .parse (.ofFault source p.grammar.keywords fault)
  | .tooDeep => .parse (.nestedTooDeep (source.location st.offset) p.nestingLimit)
  | .endless => .endless
  | .undefinedRule name => .unknownRule name
  | .unlinked name => .unlinked name

/-- The number of characters that a rule takes at the beginning of a source, if it
matches there, and the state that the match leaves. -/
def prefixLength (p : Parser) (observer : Observer σ) (start : σ) (rule : String)
    (source : Source) : Except Failure (Option Nat) × State σ :=
  match p.run observer start rule source with
  | ⟨.matched, st⟩ => (.ok (some st.offset), st)
  | ⟨.failed, st⟩ => (.ok none, st)
  | ⟨.stopped stop, st⟩ => (.error (p.failureOf source st stop), st)

/-- Whether a rule matches the whole of a source.  An error in the text counts as
no, and is left in the journal. -/
def isMatch (p : Parser) (rule : String) (source : Source) : Except Failure Bool × Journal :=
  match (p.prefixLength (Observer.idle Unit) () rule source).1 with
  | .ok consumed => (.ok (consumed == some source.length), [])
  | .error (.parse e) =>
      (.ok false,
        [⟨.parser, .debug,
          rule ++ " rejected " ++ String.ofList (Text.quoted source.chars) ++ ": " ++ e.message⟩])
  | .error failure => (.error failure, [])

/-- Match the root at the beginning of a source.  Not matching it is an error of
the text. -/
def parse (p : Parser) (observer : Observer σ) (start : σ) (source : Source) :
    Except Failure Parsed × State σ :=
  match p.prefixLength observer start p.grammar.root source with
  | (.error failure, st) => (.error failure, st)
  | (.ok none, st) =>
      (.error (.parse (.ofFault source p.grammar.keywords (st.mismatch (some p.grammar.root)))), st)
  | (.ok (some consumed), st) =>
      (.ok
        { filename := source.filename
          grammar := p.grammar.name
          rule := p.grammar.root
          consumed := consumed
          complete := consumed == source.length }, st)

def announcement (p : Parser) (source : Source) : Entry :=
  ⟨.parser, .debug, "Parsing " ++ source.filename ++ " with " ++ p.grammar.name⟩

end Parser

namespace Grammar

def checkJournal (g : Grammar) : Journal :=
  ⟨.selfCheck, .info,
      "Checking grammar " ++ g.name ++ " (" ++ toString g.rules.length ++ " rules)"⟩ ::
    g.analyze.defects.map fun defect => ⟨.selfCheck, .error, "Grammar defect " ++ defect.label⟩

end Grammar

end CartLua
