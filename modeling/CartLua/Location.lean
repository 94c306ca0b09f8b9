import CartLua.Text.Quoted

/-!
# Locations

A place in a named text.  Lines and columns count from one, columns and offsets
count characters, and the byte offset counts the bytes of the UTF-8 encoding.
-/

namespace CartLua

/-- A place in a source text, as diagnostics and records report it. -/
structure Location where
  filename : String
  line : Int
  column : Int
  offset : Int
  byteOffset : Option Int
  deriving DecidableEq, Repr, Inhabited

namespace Location

/-- The short form, `file:line:column`. -/
def label (location : Location) : String :=
  location.filename ++ ":" ++ toString location.line ++ ":" ++ toString location.column

def inspect (location : Location) : String :=
  "SourceLocation(" ++ Text.quotedString location.filename ++ ", " ++ toString location.line ++
    ", " ++ toString location.column ++ ", " ++ toString location.offset ++ ", " ++
    (match location.byteOffset with
      | some bytes => toString bytes
      | none => "None") ++ ")"

end Location

end CartLua
