/-!
# Blank characters

The white space of Unicode together with the four information separators of
ASCII.  Blanks are trimmed from both ends of a quoted fragment and are what the
skipping escape of a string literal passes over.
-/

namespace CartLua.Text

/-- Whether a character is white space. -/
def isBlank (c : Char) : Bool :=
  let n := c.toNat
  (9 ≤ n && n ≤ 13) || (28 ≤ n && n ≤ 32) || n == 0x85 || n == 0xa0 || n == 0x1680 ||
    (0x2000 ≤ n && n ≤ 0x200a) || n == 0x2028 || n == 0x2029 || n == 0x202f || n == 0x205f ||
    n == 0x3000

def trim (cs : List Char) : List Char :=
  ((cs.dropWhile isBlank).reverse.dropWhile isBlank).reverse

example : isBlank '\u3000' = true := by decide
example : isBlank '\u200b' = false := by decide

end CartLua.Text
