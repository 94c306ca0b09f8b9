import CartLua.Matching.State

/-!
# Matching

A pattern is tried at the cursor.  It matches and moves the cursor on, or it
fails and leaves the cursor where it was, or the match stops as a whole: because
the text is in error, because patterns are nested deeper than allowed, because a
loop repeats without end, or because a rule does not exist or is not linked.

The recursion is bounded by the number of patterns that may be active at the same
time, which is a limit that users set.  Loops are bounded by the length of the
text: a loop with more rounds has a round that takes nothing, and would take
nothing for ever.
-/

namespace CartLua

/-- Why a match ends before its time. -/
inductive Stop
  | fault (fault : Fault)
  | tooDeep
  /-- A loop goes on without taking anything. -/
  | endless
  | undefinedRule (name : String)
  | unlinked (name : String)
  deriving DecidableEq, Repr, Inhabited

inductive Verdict
  | matched
  | failed
  | stopped (stop : Stop)
  deriving DecidableEq, Repr, Inhabited

structure Outcome (σ : Type) where
  verdict : Verdict
  state : State σ

/-- What stays the same during a match. -/
structure Setting (σ : Type) where
  text : Array Char
  rule? : String → Option Rule
  isLinked : Site → String → Bool
  observer : Observer σ

namespace Matching

variable {σ : Type}

def terminal (text : Array Char) (t : Terminal) (st : State σ) : Outcome σ :=
  match t.scan text st.offset with
  | .take count => ⟨.matched, st.advance count⟩
  | .stay => ⟨.matched, st⟩
  | .miss => ⟨.failed, st.noteFailure⟩
  | .unclosed level => ⟨.stopped (.fault (st.unclosedBracket level st.offset)), st⟩

/-- Try patterns one after the other; when one fails, return to where the first
began. -/
def sequence (observer : Observer σ) (step : Pattern → State σ → Outcome σ) (origin : State σ) :
    List Pattern → State σ → Outcome σ
  | [], st => ⟨.matched, st⟩
  | item :: items, st =>
      match step item st with
      | ⟨.matched, st⟩ => sequence observer step origin items st
      | ⟨.failed, st⟩ => ⟨.failed, st.returnTo observer origin⟩
      | stopped => stopped

/-- Try patterns until one matches, each from the same place. -/
def choice (observer : Observer σ) (step : Pattern → State σ → Outcome σ) (origin : State σ) :
    List Pattern → State σ → Outcome σ
  | [], st => ⟨.failed, st⟩
  | alternative :: alternatives, st =>
      match step alternative st with
      | ⟨.failed, st⟩ =>
          choice observer step origin alternatives (st.returnTo observer origin)
      | outcome => outcome

/-- Repeat until the body fails, which ends the loop with a match. -/
def repeated (observer : Observer σ) (body : State σ → Outcome σ) :
    (rounds : Nat) → State σ → Outcome σ
  | 0, st => ⟨.stopped .endless, st⟩
  | rounds + 1, origin =>
      match body origin with
      | ⟨.matched, st⟩ => repeated observer body rounds st
      | ⟨.failed, st⟩ => ⟨.matched, st.returnTo observer origin⟩
      | stopped => stopped

/-- Repeat until the body fails or `count` rounds are done; both end the loop
with a match. -/
def repeatedAtMost (observer : Observer σ) (body : State σ → Outcome σ) :
    (count : Nat) → State σ → Outcome σ
  | 0, st => ⟨.matched, st⟩
  | count + 1, origin =>
      match body origin with
      | ⟨.matched, st⟩ => repeatedAtMost observer body count st
      | ⟨.failed, st⟩ => ⟨.matched, st.returnTo observer origin⟩
      | stopped => stopped

/-- Pass characters until `stop` matches; at the end of the text return to where
the loop began and fail there. -/
def skipped (observer : Observer σ) (size : Nat) (stop : State σ → Outcome σ) (origin : State σ) :
    (rounds : Nat) → State σ → Outcome σ
  | 0, st => ⟨.stopped .endless, st⟩
  | rounds + 1, st =>
      match stop st with
      | ⟨.failed, st⟩ =>
          if size ≤ st.offset then ⟨.failed, (st.returnTo observer origin).noteFailure⟩
          else skipped observer size stop origin rounds (st.advance 1)
      | outcome => outcome

/-- Repeat the body until `stop` matches; when the body fails first, return to
where the loop began. -/
def repeatedUntil (observer : Observer σ) (stop body : State σ → Outcome σ) (origin : State σ) :
    (rounds : Nat) → State σ → Outcome σ
  | 0, st => ⟨.stopped .endless, st⟩
  | rounds + 1, st =>
      match stop st with
      | ⟨.failed, st⟩ =>
          match body st with
          | ⟨.matched, st⟩ => repeatedUntil observer stop body origin rounds st
          | ⟨.failed, st⟩ => ⟨.failed, st.returnTo observer origin⟩
          | stopped => stopped
      | outcome => outcome

def lookahead (observer : Observer σ) (negated : Bool) (body : State σ → Outcome σ)
    (origin : State σ) : Outcome σ :=
  match body origin.enterLookahead with
  | ⟨.matched, st⟩ =>
      ⟨if negated then .failed else .matched, st.leaveLookahead.returnTo observer origin⟩
  | ⟨.failed, st⟩ =>
      ⟨if negated then .matched else .failed, st.leaveLookahead.returnTo observer origin⟩
  | ⟨.stopped stop, st⟩ => ⟨.stopped stop, st.leaveLookahead⟩

/-- Try a pattern whose failure is an error of the text. -/
def committed (body : State σ → Outcome σ) (description : Unit → String) (st : State σ) :
    Outcome σ :=
  match body st with
  | ⟨.failed, st⟩ => ⟨.stopped (.fault (st.mismatch (some (description ())))), st⟩
  | outcome => outcome

/-- Try the body of a rule, and tell the observer when it matches. -/
def named (observer : Observer σ) (rule : Rule) (body : State σ → Outcome σ) (origin : State σ) :
    Outcome σ :=
  match body (origin.enter rule) with
  | ⟨.matched, st⟩ => ⟨.matched, (st.leave rule).announce observer rule origin.offset⟩
  | ⟨verdict, st⟩ => ⟨verdict, st.leave rule⟩

/-- The number of rounds that no loop over this text needs. -/
def roundLimit (text : Array Char) : Nat := text.size + 2

/-- Try a pattern at the cursor, with at most `depth` patterns active at the same
time. -/
def run (setting : Setting σ) : (depth : Nat) → Pattern → State σ → Outcome σ
  | 0, _, st => ⟨.stopped .tooDeep, st⟩
  | depth + 1, p, st =>
      match p with
      | .terminal t => terminal setting.text t st
      | .seq items => sequence setting.observer (run setting depth) st items st
      | .choice alternatives => choice setting.observer (run setting depth) st alternatives st
      | .star _ body =>
          repeated setting.observer (run setting depth body) (roundLimit setting.text) st
      | .plus _ body =>
          match run setting depth body st with
          | ⟨.matched, st⟩ =>
              repeated setting.observer (run setting depth body) (roundLimit setting.text) st
          | outcome => outcome
      | .opt body => repeatedAtMost setting.observer (run setting depth body) 1 st
      | .atMost count body =>
          repeatedAtMost setting.observer (run setting depth body) count.toNat st
      | .lookahead negated body => lookahead setting.observer negated (run setting depth body) st
      | .skipTo stop =>
          skipped setting.observer setting.text.size (run setting depth stop) st
            (roundLimit setting.text) st
      | .repeatUntil _ stop body =>
          repeatedUntil setting.observer (run setting depth stop) (run setting depth body) st
            (roundLimit setting.text) st
      | .must body => committed (run setting depth body) (fun _ => body.describe) st
      | .rule name =>
          match setting.rule? name with
          | some rule => named setting.observer rule (run setting depth rule.body) st
          | none => ⟨.stopped (.undefinedRule name), st⟩
      | .ref site name =>
          if setting.isLinked site name then run setting depth (.rule name) st
          else ⟨.stopped (.unlinked name), st⟩

end Matching

end CartLua
