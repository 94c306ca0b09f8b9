import CartLua.Dialect.Basic

/-!
# Configuration of a fix
-/

namespace CartLua

def Config.leastLimit : Int := 100

structure Config where
  /-- The language of the text.  In plain Lua the extensions are errors. -/
  dialect : Dialect
  filename : String
  nestingLimit : Int
  /-- Whether known fixes are applied before the text is parsed. -/
  knownFixes : Bool
  leastLimit_le : Config.leastLimit ≤ nestingLimit

namespace Config

def usual : Config where
  dialect := .pico8
  filename := "<cart>"
  nestingLimit := 8000
  knownFixes := true
  leastLimit_le := by decide

/-- Set the limit of nesting, which must not be too low. -/
def withNestingLimit? (config : Config) (limit : Int) : Option Config :=
  if h : leastLimit ≤ limit then some { config with nestingLimit := limit, leastLimit_le := h }
  else none

def limitMessage (limit : Int) : String :=
  "recursion_limit must be at least " ++ toString leastLimit ++ ", got " ++ toString limit

end Config

end CartLua
