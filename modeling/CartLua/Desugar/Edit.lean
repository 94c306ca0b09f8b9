import CartLua.Position

/-!
# Edits

An edit replaces a range of a text.  A list of edits that is ordered and
disjoint is applied in one sweep from left to right, and the text kept between
two edits may be transformed on the way.
-/

namespace CartLua

/-- Replace the characters from position `start` up to position `stop`. -/
structure Edit where
  start : Int
  stop : Int
  replacement : List Char
  deriving DecidableEq, Repr, Inhabited

namespace Edit

/-- The characters of a text from `cursor` up to `stop` with the edits applied
and `gap` applied to each piece that is kept. -/
def splice (text : Array Char) (gap : List Char → List Char) (stop : Int) :
    (cursor : Int) → List Edit → List Char
  | cursor, [] => gap (Position.piece text cursor stop)
  | cursor, edit :: edits =>
      gap (Position.piece text cursor edit.start) ++
        (edit.replacement ++ splice text gap stop edit.stop edits)

def keep (kept : List Char) : List Char := kept

/-- The whole text with the edits applied. -/
def applyAll (text : Array Char) (edits : List Edit) : List Char :=
  splice text keep text.size 0 edits

@[simp]
theorem splice_nil (text : Array Char) (gap : List Char → List Char) (stop cursor : Int) :
    splice text gap stop cursor [] = gap (Position.piece text cursor stop) := rfl

@[simp]
theorem splice_cons (text : Array Char) (gap : List Char → List Char) (stop cursor : Int)
    (edit : Edit) (edits : List Edit) :
    splice text gap stop cursor (edit :: edits) =
      gap (Position.piece text cursor edit.start) ++
        (edit.replacement ++ splice text gap stop edit.stop edits) := rfl

@[simp]
theorem applyAll_nil (text : Array Char) : applyAll text [] = text.toList := by
  have hpiece : Position.piece text 0 text.size = (text.extract 0 text.size).toList :=
    Position.piece_natCast text 0 text.size
  simp [applyAll, keep, hpiece]

end Edit

end CartLua
