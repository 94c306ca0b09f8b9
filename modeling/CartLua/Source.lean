import CartLua.Location
import CartLua.Position

/-!
# Source texts

A source is a text with a file name and an index of its lines.  Offsets are
positions in the text; the index turns them into lines, columns and byte offsets
and back.  A source is never changed in place: an edited text is a new source.

A text is a sequence of Unicode scalar values, as a source file in UTF-8 gives it.
Lone surrogates are no characters of a text, so every character takes from one to
four bytes and every offset has a byte offset.
-/

namespace CartLua

/-- Where a line begins, in characters and in bytes. -/
structure LineStart where
  offset : Nat
  byteOffset : Nat
  deriving DecidableEq, Repr, Inhabited

namespace LineStart

def first : LineStart := ⟨0, 0⟩

/-- The lines begun by the line feeds of a text that is itself at this place. -/
def scan (place : LineStart) : List Char → List LineStart
  | [] => []
  | c :: cs =>
      let next : LineStart := ⟨place.offset + 1, place.byteOffset + c.utf8Size⟩
      if c = '\n' then next :: next.scan cs else next.scan cs

end LineStart

structure Source where
  filename : String
  text : Array Char
  /-- The beginnings of the lines after the first one. -/
  laterLines : List LineStart
  /-- Whether every character takes one byte. -/
  ascii : Bool
  laterLines_eq : laterLines = LineStart.first.scan text.toList
  ascii_eq : ascii = text.toList.all fun c => c.toNat < 0x80

/-- A line that was asked for and is not there. -/
structure LineError where
  line : Int
  lineCount : Nat
  deriving DecidableEq, Repr, Inhabited

def LineError.message (e : LineError) : String :=
  "line " ++ toString e.line ++ " out of range 1.." ++ toString e.lineCount

namespace Source

def ofArray (text : Array Char) (filename : String) : Source where
  filename := filename
  text := text
  laterLines := LineStart.first.scan text.toList
  ascii := text.toList.all fun c => c.toNat < 0x80
  laterLines_eq := rfl
  ascii_eq := rfl

def ofChars (text : List Char) (filename : String) : Source :=
  ofArray text.toArray filename

def ofString (text : String) (filename : String) : Source :=
  ofChars text.toList filename

def replaced (source : Source) (text : List Char) : Source :=
  ofChars text source.filename

def length (source : Source) : Nat := source.text.size

def chars (source : Source) : List Char := source.text.toList

def toString (source : Source) : String := String.ofList source.chars

/-- The characters from `start` up to `stop`, cut off at the end of the text. -/
def slice (source : Source) (start stop : Nat) : List Char :=
  (source.text.extract start stop).toList

/-- The characters between two positions, each of which may count from the end. -/
def piece (source : Source) (start stop : Int) : List Char :=
  Position.piece source.text start stop

/-- The number of lines: one more than there are line feeds. -/
def lineCount (source : Source) : Nat := source.laterLines.length + 1

def lineStarts (source : Source) : List LineStart := LineStart.first :: source.laterLines

def inspect (source : Source) : String :=
  "SourceText(" ++ Text.quotedString source.filename ++ ", " ++ ToString.toString source.length ++
    " chars, " ++ ToString.toString source.lineCount ++ " lines)"

def clamp (source : Source) (offset : Int) : Nat := min offset.toNat source.length

/-- The number and the beginning of the line that holds `offset`, when the line
`number` begins at `current` and the ones after it at `later`. -/
def lineHolding (offset : Nat) : Nat → LineStart → List LineStart → Nat × LineStart
  | number, current, [] => (number, current)
  | number, current, next :: later =>
      if next.offset ≤ offset then lineHolding offset (number + 1) next later
      else (number, current)

def lineOf (source : Source) (offset : Nat) : Nat × LineStart :=
  lineHolding offset 1 LineStart.first source.laterLines

/-- The line and the column of an offset; outside the text, those of its nearer
end. -/
def lineAndColumn (source : Source) (offset : Int) : Nat × Nat :=
  let position := source.clamp offset
  let (number, line) := source.lineOf position
  (number, position - line.offset + 1)

/-- The number of bytes before an offset; outside the text, before its nearer
end. -/
def byteOffset (source : Source) (offset : Int) : Nat :=
  let position := source.clamp offset
  if source.ascii then position
  else
    let line := (source.lineOf position).2
    line.byteOffset +
      (source.slice line.offset position).foldr (fun c bytes => c.utf8Size + bytes) 0

/-- The location of an offset.  The offset itself is kept as it was given. -/
def location (source : Source) (offset : Int) : Location :=
  let (line, column) := source.lineAndColumn offset
  { filename := source.filename
    line := line
    column := column
    offset := offset
    byteOffset := some (source.byteOffset offset) }

/-- The offset of a column of a line, at most the end of the text.  There is none
for a line that the text does not have. -/
def offsetOf? (source : Source) (line column : Int) : Option Int :=
  if line < 1 then none
  else
    (source.lineStarts[(line - 1).toNat]?).map fun start =>
      min (start.offset + column - 1) source.length

/-- The offset of a column of a line, or what is wrong with the line. -/
def offsetOf (source : Source) (line column : Int) : Except LineError Int :=
  match source.offsetOf? line column with
  | some offset => .ok offset
  | none => .error ⟨line, source.lineCount⟩

/-- A line without its line feed.  Lines count from one; zero and below count back
from the last line. -/
def lineText? (source : Source) (line : Int) : Option (List Char) :=
  (Position.item? source.lineStarts (line - 1)).map fun start =>
    (source.slice start.offset source.length).takeWhile (· != '\n')

@[simp]
theorem chars_ofChars (text : List Char) (filename : String) :
    (ofChars text filename).chars = text := by
  simp [ofChars, ofArray, chars]

@[simp]
theorem length_ofChars (text : List Char) (filename : String) :
    (ofChars text filename).length = text.length := by
  simp [ofChars, ofArray, length]

theorem offsetOf_eq_ok_iff {source : Source} {line column offset : Int} :
    source.offsetOf line column = .ok offset ↔ source.offsetOf? line column = some offset := by
  rw [offsetOf]
  cases source.offsetOf? line column <;> simp

/-- Only a line outside the text is refused, and the error says which ones there are. -/
theorem offsetOf_eq_error_iff {source : Source} {line column : Int} {e : LineError} :
    source.offsetOf line column = .error e ↔
      (line < 1 ∨ source.lineCount < line) ∧ e = ⟨line, source.lineCount⟩ := by
  have hnone : source.offsetOf? line column = none ↔ line < 1 ∨ source.lineCount < line := by
    rw [offsetOf?]
    split
    · simp [*]
    · rw [Option.map_eq_none_iff, List.getElem?_eq_none_iff, lineStarts, List.length_cons,
        lineCount]
      omega
  rw [← hnone, offsetOf]
  cases source.offsetOf? line column <;> simp [eq_comm]

/-- A slice is what the characters before `stop` leave after the first `start`. -/
theorem slice_eq (source : Source) (start stop : Nat) :
    source.slice start stop = (source.chars.take stop).drop start := by
  simp [slice, chars, List.drop_take]

@[simp]
theorem piece_natCast (source : Source) (start stop : Nat) :
    source.piece start stop = source.slice start stop := by
  simp [piece, slice]

end Source

end CartLua
