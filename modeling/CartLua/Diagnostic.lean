import CartLua.Location
import CartLua.Text.CaseMap

/-!
# Diagnostics

The record through which every stage reports: a message, where it applies, how
grave it is, and what the reader may do about it.
-/

namespace CartLua

structure Diagnostic where
  message : String
  severity : String
  location : Option Location
  code : Option String
  help : Option String
  suggestions : Option (List String)
  deriving DecidableEq, Repr, Inhabited

namespace Diagnostic

def error (code message : String) (location : Option Location) (help : Option String)
    (suggestions : Option (List String)) : Diagnostic where
  message := message
  severity := "error"
  location := location
  code := some code
  help := help
  suggestions := suggestions

def warning (code message : String) (location : Option Location) (help : Option String)
    (suggestions : Option (List String)) : Diagnostic :=
  { error code message location help suggestions with severity := "warning" }

def pointer (location : Location) : String :=
  "  --> " ++ location.label ++
    (match location.byteOffset with
      | some bytes => " (byte " ++ toString bytes ++ ")"
      | none => "") ++ "\n"

/-- The help line; an empty help text is left out. -/
def helpLine (help : Option String) : String :=
  match help with
  | some text => if text.isEmpty then "" else "  help: " ++ text ++ "\n"
  | none => ""

/-- The list of suggestions; an empty one is left out. -/
def suggestionLines (suggestions : Option (List String)) : String :=
  match suggestions with
  | some (first :: rest) =>
      "  suggestions:\n" ++
        String.join ((first :: rest).map fun suggestion => "    - " ++ suggestion ++ "\n")
  | _ => ""

def render (d : Diagnostic) : String :=
  String.ofList (Text.upper d.severity.toList) ++ ": " ++ d.message ++ "\n" ++
    (match d.location with
      | some location => pointer location
      | none => "") ++
    helpLine d.help ++ suggestionLines d.suggestions

end Diagnostic

end CartLua
