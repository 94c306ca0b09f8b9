import CartLua.Diagnostic
import CartLua.Matching.State
import CartLua.Source
import CartLua.Suggestion
import CartLua.Text.Blank

/-!
# Errors and warnings of a parse

A parse error says where a text stops following the grammar and which rules were
being matched there, which is what a reader can act on.
-/

namespace CartLua

/-- Why a text is not accepted. -/
inductive ParseError
  | mismatch (expected : Option String) (location : Location) (context : List String)
      (found : String) (keywords : List String)
  | unclosedBracket (level : Nat) (location : Location) (context : List String)
  | nestedTooDeep (location : Location) (limit : Int)
  deriving DecidableEq, Repr, Inhabited

namespace ParseError

def meanings : List (String × String) :=
  [("P001", "Syntax error"),
    ("P002", "Unterminated long bracket"),
    ("P003", "Nesting too deep"),
    ("W001", "Unsupported single-line if")]

def code : ParseError → String
  | mismatch .. => "P001"
  | unclosedBracket .. => "P002"
  | nestedTooDeep .. => "P003"

/-- The pattern that did not match, if it is known. -/
def rule : ParseError → Option String
  | mismatch expected .. => expected
  | unclosedBracket .. => some "long_string"
  | nestedTooDeep .. => none

/-- The rules around the error, outermost first. -/
def context : ParseError → List String
  | mismatch _ _ context _ _ => context
  | unclosedBracket _ _ context => context
  | nestedTooDeep .. => []

def location : ParseError → Location
  | mismatch _ location .. => location
  | unclosedBracket _ location _ => location
  | nestedTooDeep location _ => location

def closing (level : Nat) : String := String.ofList (Terminal.closingBracket level)

def message : ParseError → String
  | mismatch expected _ _ found _ =>
      (if found.isEmpty then "Syntax error at end of input"
        else "Syntax error near '" ++ found ++ "'") ++
        (match expected with
          | some rule => if rule.isEmpty then "" else " while matching " ++ rule
          | none => "")
  | unclosedBracket .. => "Unterminated long bracket"
  | nestedTooDeep .. => "Code is nested too deeply to parse"

/-- The innermost four rules of a context. -/
def contextText (context : List String) : String :=
  " > ".intercalate (context.drop (context.length - 4))

def help : ParseError → Option String
  | mismatch _ _ context _ _ =>
      if context.isEmpty then none else some ("Parser was inside: " ++ contextText context)
  | unclosedBracket level _ _ =>
      some ("A long string or comment opened here must be closed with '" ++ closing level ++ "'.")
  | nestedTooDeep _ limit =>
      some ("The recursion limit (" ++ toString limit ++
        ") was reached; raise recursion_limit to allow deeper nesting.")

def suggestions : ParseError → Option (List String)
  | mismatch _ _ _ found keywords =>
      if found.isEmpty then none
      else
        match Suggestion.nearestKeywords found keywords with
        | [] => none
        | nearest => some (nearest.map fun keyword => "Did you mean '" ++ keyword ++ "'?")
  | unclosedBracket level _ _ => some ["Add a closing '" ++ closing level ++ "'"]
  | nestedTooDeep .. => none

def diagnostic (e : ParseError) : Diagnostic :=
  .error e.code e.message (some e.location) e.help e.suggestions

/-- The piece of text that an error points at: a whole word, one other character,
or nothing at the end. -/
def foundText (source : Source) (offset : Nat) : String :=
  if source.length ≤ offset then ""
  else
    let stop := Text.runEnd source.text Terminal.isIdentifierPart offset
    String.ofList (source.slice offset (if stop = offset then offset + 1 else stop))

def ofFault (source : Source) (keywords : List String) : Fault → ParseError
  | .mismatch expected offset context =>
      mismatch expected (source.location offset) context (foundText source offset) keywords
  | .unclosedBracket level offset context =>
      unclosedBracket level (source.location offset) context

end ParseError

/-- The warning about an `if` on one line, which is left as it is. -/
structure ShortIfWarning where
  location : Location
  text : List Char
  deriving DecidableEq, Repr, Inhabited

def ShortIfWarning.diagnostic (w : ShortIfWarning) : Diagnostic :=
  .warning "W001" ("Unsupported single-line if: " ++ String.ofList (Text.trim w.text))
    (some w.location)
    (some ("The form 'if (cond) stmt' is not rewritten; " ++
      "its extent is ambiguous with nested blocks."))
    (some ["Rewrite it as 'if cond then stmt end'"])

end CartLua
