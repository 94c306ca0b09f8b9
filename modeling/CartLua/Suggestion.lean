import CartLua.Sorting
import CartLua.Text.CaseMap

/-!
# Suggestions for misspelt keywords

The distance of two words is the least number of single-character insertions,
deletions and substitutions between them.  It is computed row by row: the row of
a word `s` holds its distances to the beginnings of the other word, and one more
character of `s` makes the next row out of it.  The longer word is the one that is
read character by character, so that the rows are as short as they can be.
-/

namespace CartLua.Suggestion

/-- The rest of the next row.  `c` is the character added to the first word,
`diagonal` and `left` are the entries before the next one in the old and in the
new row, and the lists are what remains of the second word and of the old row. -/
def extendRow (c : Char) (diagonal left : Nat) : List Char → List Nat → List Nat
  | d :: ds, up :: row =>
      let entry := min (min (up + 1) (left + 1)) (diagonal + if c = d then 0 else 1)
      entry :: extendRow c up entry ds row
  | _, _ => []

/-- The row after one more character of the first word. -/
def nextRow (other : List Char) (row : List Nat) (c : Char) : List Nat :=
  match row with
  | [] => []
  | entry :: row => (entry + 1) :: extendRow c entry (entry + 1) other row

def distanceRow (word other : List Char) : List Nat :=
  word.foldl (nextRow other) (List.range (other.length + 1))

/-- The edit distance of a word and one that is no longer. -/
def distanceToShorter (word other : List Char) : Nat :=
  if other.isEmpty then word.length else (distanceRow word other).getLastD 0

def editDistance (word other : List Char) : Nat :=
  if word.length < other.length then distanceToShorter other word
  else distanceToShorter word other

/-- Whether a keyword at this distance is close enough to be meant: at most two
edits, and fewer than its own length. -/
def isClose (distance : Nat) (keyword : List Char) : Bool :=
  distance ≤ 2 && distance < keyword.length

def closeKeywords (word : List Char) (keywords : List String) : List (Nat × String) :=
  (keywords.map fun keyword => (editDistance word keyword.toList, keyword)).filter
    fun candidate => isClose candidate.1 candidate.2.toList

/-- The three nearest keywords, nearest first, those at one distance in the order
of the list.  A keyword itself, and the empty word, suggest nothing. -/
def nearestKeywords (word : String) (keywords : List String) : List String :=
  let folded := Text.lower word.toList
  if folded.isEmpty || keywords.contains (String.ofList folded) then []
  else
    ((sortBy (fun a b => a.1 ≤ b.1) (closeKeywords folded keywords)).take 3).map
      fun candidate => candidate.2

example : editDistance "thn".toList "then".toList = 1 := by decide
example : editDistance "".toList "abc".toList = 3 := by decide

end CartLua.Suggestion
