import CartLua.Text.Blank

/-!
# Rendering on one line

A piece of program text may be copied to a place where it must not break the
line.  Between the tokens a line break becomes a space, a comment becomes a
space, and a string literal that spans lines is written with escapes for its
line breaks.
-/

namespace CartLua.OneLine

def isLineEnd (c : Char) : Bool := c = '\n' || c = '\r'

/-- A text whose line breaks have become spaces. -/
def spaced (cs : List Char) : List Char :=
  cs.map fun c => if isLineEnd c then ' ' else c

/-- What follows the line break at the start of a text, if there is one.  Two
different line end characters in a row are one break. -/
def afterBreak? : List Char → Option (List Char)
  | '\r' :: '\n' :: rest => some rest
  | '\n' :: '\r' :: rest => some rest
  | '\r' :: rest => some rest
  | '\n' :: rest => some rest
  | _ => none

/-- A text with an escape in the place of each line break. -/
def escapeBreaks : List Char → List Char
  | [] => []
  | '\r' :: '\n' :: rest => '\\' :: 'n' :: escapeBreaks rest
  | '\n' :: '\r' :: rest => '\\' :: 'n' :: escapeBreaks rest
  | '\r' :: rest => '\\' :: 'n' :: escapeBreaks rest
  | '\n' :: rest => '\\' :: 'n' :: escapeBreaks rest
  | c :: rest => c :: escapeBreaks rest

/-- A text with a backslash before every backslash and every double quote. -/
def escapeMarks (cs : List Char) : List Char :=
  cs.flatMap fun c => if c = '\\' || c = '"' then ['\\', c] else [c]

def quote (value : List Char) : List Char :=
  '"' :: escapeBreaks (escapeMarks value) ++ ['"']

/-- The value of a long string literal: what its brackets hold, less a line break
right after the opening one.  There is none when the second opening bracket is
missing. -/
def longStringValue? (literal : List Char) : Option (List Char) :=
  match literal with
  | [] => none
  | _ :: rest =>
      if rest.contains '[' then
        let level := (rest.takeWhile (· != '[')).length
        let body := (literal.drop (level + 2)).take (literal.length - (level + 2) - (level + 2))
        some ((afterBreak? body).getD body)
      else none

/-- Where a reader of a quoted literal stands. -/
inductive Place
  | plain
  | escape
  /-- Among the blanks after a skipping escape. -/
  | blanks
  /-- After an escaped carriage return, which a line feed completes. -/
  | afterReturn
  /-- After an escaped line feed, which a carriage return completes. -/
  | afterFeed
  deriving DecidableEq, Repr

def plainStep (c : Char) : List Char × Place :=
  if c = '\\' then ([], .escape) else ([c], .plain)

/-- One character of a quoted literal: what is written for it and where it
leads. -/
def flatStep : Place → Char → List Char × Place
  | .plain, c => plainStep c
  | .escape, c =>
      if c = 'z' then (['\\', 'z'], .blanks)
      else if c = '\r' then (['\\', 'n'], .afterReturn)
      else if c = '\n' then (['\\', 'n'], .afterFeed)
      else (['\\', c], .plain)
  | .blanks, c => if Text.isBlank c then ([], .blanks) else plainStep c
  | .afterReturn, c => if c = '\n' then ([], .plain) else plainStep c
  | .afterFeed, c => if c = '\r' then ([], .plain) else plainStep c

/-- The rest of a quoted literal from a place on, with its line breaks written as
escapes.  An escaped line break becomes the escape of a line feed, and a skipping
escape loses the blanks that it skips. -/
def flatQuoted : Place → List Char → List Char
  | .escape, [] => ['\\']
  | _, [] => []
  | place, c :: cs => (flatStep place c).1 ++ flatQuoted (flatStep place c).2 cs

/-- The replacement of a string literal that must stand on one line, or nothing
when the literal may stay as it is.  The outer option is empty for a text that is
no literal at all. -/
def flatString? (literal : List Char) : Option (Option (List Char)) :=
  if literal.any isLineEnd then
    if literal.head? = some '[' then (longStringValue? literal).map fun value => some (quote value)
    else some (some (flatQuoted .plain literal))
  else some none

@[simp]
theorem length_spaced (cs : List Char) : (spaced cs).length = cs.length := by
  simp [spaced]

@[simp]
theorem spaced_append (cs ds : List Char) : spaced (cs ++ ds) = spaced cs ++ spaced ds := by
  simp [spaced]

theorem not_isLineEnd_of_mem_spaced {c : Char} {cs : List Char} (hc : c ∈ spaced cs) :
    isLineEnd c = false := by
  obtain ⟨d, -, rfl⟩ := List.mem_map.1 hc
  by_cases hd : isLineEnd d = true
  · rw [if_pos hd]
    decide
  · rw [if_neg hd]
    exact Bool.eq_false_iff.mpr hd

end CartLua.OneLine
