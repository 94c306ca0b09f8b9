/-!
# Positions

A position given from outside is an integer.  From zero on it counts from the
beginning of a text or list, below zero from the end: the last item is at -1.
Bounds of a piece are cut off at both ends, while a single item must exist.
-/

namespace CartLua.Position

/-- How far a position lies from the beginning of `size` items. -/
def fromStart (size : Nat) (position : Int) : Int :=
  if position < 0 then position + size else position

def bound (size : Nat) (position : Int) : Nat := (fromStart size position).toNat

def item? {α : Type} (items : List α) (position : Int) : Option α :=
  let index := fromStart items.length position
  if index < 0 then none else items[index.toNat]?

def char? (text : Array Char) (position : Int) : Option Char :=
  let index := fromStart text.size position
  if index < 0 then none else text[index.toNat]?

/-- The characters between two positions of a text. -/
def piece (text : Array Char) (start stop : Int) : List Char :=
  (text.extract (bound text.size start) (bound text.size stop)).toList

@[simp]
theorem fromStart_natCast (size n : Nat) : fromStart size n = n :=
  if_neg (Int.not_lt.mpr (Int.natCast_nonneg n))

@[simp]
theorem bound_natCast (size n : Nat) : bound size n = n := by
  simp [bound]

@[simp]
theorem item?_natCast {α : Type} (items : List α) (n : Nat) : item? items n = items[n]? := by
  simp only [item?, fromStart_natCast]
  rw [if_neg (Int.not_lt.mpr (Int.natCast_nonneg n)), Int.toNat_natCast]

@[simp]
theorem char?_natCast (text : Array Char) (n : Nat) : char? text n = text[n]? := by
  simp only [char?, fromStart_natCast]
  rw [if_neg (Int.not_lt.mpr (Int.natCast_nonneg n)), Int.toNat_natCast]

@[simp]
theorem piece_natCast (text : Array Char) (start stop : Nat) :
    piece text start stop = (text.extract start stop).toList := by
  simp [piece]

example : piece "cart".toList.toArray (-3) 3 = ['a', 'r'] := by decide
example : piece "cart".toList.toArray (-9) (-2) = ['c', 'a'] := by decide
example : item? [1, 2, 3] (-1) = some 3 := by decide
example : item? [1, 2, 3] (-4) = none := by decide

end CartLua.Position
