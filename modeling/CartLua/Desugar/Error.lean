import CartLua.Diagnostic

/-!
# Records that do not fit

Desugaring works on what a parse has recorded.  Each of its errors means that a
record does not fit the text, and the work is given up.
-/

namespace CartLua

inductive RecordError
  | tokenMismatch (expected found : String) (location : Location)
  | missingOperator (text : String) (location : Location)
  /-- Two records overlap in a way that no edits can follow. -/
  | overlap (outer inner : String) (location : Location)
  /-- A record's line and column are not those of its offset, or it does not fit
  into the text. -/
  | stalePosition (recorded : String) (actual : Location)
  deriving DecidableEq, Repr, Inhabited

namespace RecordError

def meanings : List (String × String) :=
  [("R001", "Record does not point at the expected token"),
    ("R002", "Compound assignment operator not found"),
    ("R003", "Overlapping occurrence records"),
    ("R004", "Record position disagrees with the source")]

def code : RecordError → String
  | tokenMismatch .. => "R001"
  | missingOperator .. => "R002"
  | overlap .. => "R003"
  | stalePosition .. => "R004"

def location : RecordError → Location
  | tokenMismatch _ _ location => location
  | missingOperator _ location => location
  | overlap _ _ location => location
  | stalePosition _ actual => actual

def message : RecordError → String
  | tokenMismatch expected found _ =>
      "Expected '" ++ expected ++ "' at recorded position, found '" ++ found ++ "'"
  | missingOperator text _ => "No compound assignment operator in '" ++ text ++ "'"
  | overlap outer inner _ => "Occurrence '" ++ inner ++ "' overlaps '" ++ outer ++ "'"
  | stalePosition recorded actual =>
      "Record at " ++ recorded ++ " does not match its offset (" ++ toString actual.line ++ ":" ++
        toString actual.column ++ ")"

def help : RecordError → Option String
  | tokenMismatch .. => some "The recorder and the rewriter disagree about the source text."
  | missingOperator .. =>
      some "A reassignment record must contain one of +=, -=, *=, /=, %=."
  | overlap .. => some "Records must be disjoint or strictly nested."
  | stalePosition .. => none

def diagnostic (e : RecordError) : Diagnostic :=
  .error e.code e.message (some e.location) e.help none

end RecordError

/-- Why there is no plan for some records. -/
inductive PlanFailure
  | record (error : RecordError)
  /-- A text given as a string literal begins with a bracket and has no second
  one. -/
  | malformedLiteral
  /-- An operator is recorded before the beginning of the text. -/
  | operatorOutside
  deriving DecidableEq, Repr, Inhabited

end CartLua
