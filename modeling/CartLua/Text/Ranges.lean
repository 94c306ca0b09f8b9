/-!
# Sets of code points

A set of code points is written as the increasing list of its boundaries: the
first number opens an interval, the next one closes it, and so on.  Property
tables of Unicode take this form.  Only scalar values are looked up in them: the
characters of a text are what UTF-8 encodes, and no surrogate is among them.
-/

namespace CartLua.Text

/-- Whether `n` lies in the set with these boundaries, that is, whether an odd
number of them is at most `n`. -/
def within : List Nat → Nat → Bool
  | [], _ => false
  | bound :: bounds, n => if n < bound then false else !within bounds n

end CartLua.Text
