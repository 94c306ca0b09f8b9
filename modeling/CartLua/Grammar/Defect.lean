import CartLua.Diagnostic

/-!
# Defects of grammars

What the self-check of a grammar finds.  A flaw says what is wrong; a defect is
its report, with a code, the rule concerned and a message.
-/

namespace CartLua

inductive Flaw
  | undefinedReference (rule target : String)
  | unreachable (rule root : String)
  | emptyLoop (rule body : String)
  /-- A loop with an end condition repeats a pattern that can match nothing. -/
  | emptyUntil (rule body : String)
  /-- Each rule of a cycle can begin with the next one, and the last with `first`. -/
  | leftRecursion (first : String) (rest : List String)
  | missingRoot (root : String)
  deriving DecidableEq, Repr, Inhabited

structure Defect where
  code : String
  rule : String
  message : String
  deriving DecidableEq, Repr, Inhabited

def Defect.meanings : List (String × String) :=
  [("G001", "Reference to an undefined rule"),
    ("G002", "Rule unreachable from the root"),
    ("G003", "Repetition over a rule that can match the empty string"),
    ("G004", "Left recursion"),
    ("G005", "Root rule missing")]

def Defect.label (defect : Defect) : String :=
  "[" ++ defect.code ++ "] " ++ defect.rule ++ ": " ++ defect.message

/-- A defect as a diagnostic, with the meaning of its code for help. -/
def Defect.diagnostic (defect : Defect) : Diagnostic :=
  .error defect.code (defect.rule ++ ": " ++ defect.message) none
    (Defect.meanings.lookup defect.code) none

def Flaw.defect : Flaw → Defect
  | undefinedReference rule target =>
      ⟨"G001", rule, "refers to undefined rule '" ++ target ++ "'"⟩
  | unreachable rule root => ⟨"G002", rule, "is not reachable from '" ++ root ++ "'"⟩
  | emptyLoop rule body => ⟨"G003", rule, "repeats " ++ body ++ ", which can match nothing"⟩
  | emptyUntil rule body => ⟨"G003", rule, "until-loop body " ++ body ++ " can match nothing"⟩
  | leftRecursion first rest =>
      ⟨"G004", first,
        "is left recursive: " ++ " -> ".intercalate (first :: rest ++ [first])⟩
  | missingRoot root => ⟨"G005", root, "root rule is not defined"⟩

/-- A grammar that fails its self-check, with everything found. -/
structure GrammarError where
  grammar : String
  defects : List Defect
  deriving DecidableEq, Repr, Inhabited

namespace GrammarError

/-- The first five defects and the number of the others. -/
def message (e : GrammarError) : String :=
  "grammar " ++ e.grammar ++ " failed self-check: " ++
    "; ".intercalate ((e.defects.take 5).map Defect.label) ++
    (if 5 < e.defects.length then "; ... " ++ toString (e.defects.length - 5) ++ " more" else "")

def codes (e : GrammarError) : List String := e.defects.map Defect.code

def diagnostics (e : GrammarError) : List Diagnostic := e.defects.map Defect.diagnostic

end GrammarError

end CartLua
