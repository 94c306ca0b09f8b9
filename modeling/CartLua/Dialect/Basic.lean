/-!
# Dialects

Plain Lua, and the dialect of PICO-8 carts.  The dialect also has `!=` for `~=`,
compound assignments such as `a += b`, and an `if` on one line without `then` and
`end`.
-/

namespace CartLua

inductive Dialect
  | canonical
  /-- Lua 5.3 with the extensions of PICO-8. -/
  | pico8
  deriving DecidableEq, Repr, Inhabited

namespace Dialect

def ofExtended (extended : Bool) : Dialect := if extended then pico8 else canonical

/-- Items that only the extended dialect has. -/
def extension {α : Type} (items : List α) : Dialect → List α
  | canonical => []
  | pico8 => items

end Dialect

end CartLua
