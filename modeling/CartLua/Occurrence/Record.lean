import CartLua.Occurrence.OffsetLog
import CartLua.Sorting

/-!
# Occurrences of the dialect

What a parse finds of the dialect extensions, and of the comments and strings
that a copied target has to carry along.
-/

namespace CartLua

inductive OccurrenceKind
  | notEqual
  | reassignment
  /-- An `if` on one line without `then` and `end`. -/
  | shortIf
  deriving DecidableEq, Repr, Inhabited

namespace OccurrenceKind

/-- All kinds, in the order of reports. -/
def all : List OccurrenceKind := [notEqual, reassignment, shortIf]

/-- The name of a kind, which is the name of the rule that recognises it. -/
def name : OccurrenceKind → String
  | notEqual => "operator_notequal"
  | reassignment => "reassignment"
  | shortIf => "short_if_statement"

def ofName? (name : String) : Option OccurrenceKind :=
  all.find? fun kind => kind.name == name

@[simp]
theorem ofName?_name (kind : OccurrenceKind) : ofName? kind.name = some kind := by
  cases kind <;> decide

end OccurrenceKind

/-- What a lexeme is.  Only comments and strings come from a parse. -/
inductive LexemeKind
  | comment
  | string
  | other (name : String)
  deriving DecidableEq, Repr, Inhabited

namespace LexemeKind

def name : LexemeKind → String
  | comment => "comment"
  | string => "string"
  | other name => name

def ofName (name : String) : LexemeKind :=
  if name = "comment" then comment else if name = "string" then string else other name

end LexemeKind

/-- A comment or a string literal from `offset` up to `stop`. -/
structure Lexeme where
  kind : LexemeKind
  offset : Int
  stop : Int
  deriving DecidableEq, Repr, Inhabited

instance : Positioned Lexeme := ⟨Lexeme.offset⟩

/-- An extension found in a text.  The length leaves out trailing blanks and
comments.  A compound assignment also has the offset of its operator and the
comments and strings of its target.  An occurrence may also be made by hand, so
its numbers are only trusted once they are checked against the text. -/
structure Occurrence where
  kind : OccurrenceKind
  offset : Int
  line : Int
  column : Int
  length : Int
  text : List Char
  operator : Option Int
  layout : List Lexeme
  deriving DecidableEq, Repr, Inhabited

instance : Positioned Occurrence := ⟨Occurrence.offset⟩

namespace Occurrence

def stop (occurrence : Occurrence) : Int := occurrence.offset + occurrence.length

/-- The kind, the place and the text on one line. -/
def label (occurrence : Occurrence) : String :=
  occurrence.kind.name ++ " at " ++ toString occurrence.line ++ ":" ++
    toString occurrence.column ++ ": " ++ String.ofList occurrence.text

/-- Earlier occurrences come first, and of two at one offset the longer one. -/
def precedes (a b : Occurrence) : Bool :=
  a.offset < b.offset || (a.offset == b.offset && b.length ≤ a.length)

def sort (occurrences : List Occurrence) : List Occurrence :=
  sortBy precedes occurrences

end Occurrence

end CartLua
