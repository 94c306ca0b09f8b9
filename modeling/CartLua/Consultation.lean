import CartLua.Source

/-!
# Questions about places

Byte offsets are needed for diagnostics only, and a text of one-byte characters needs no table to
give them.  A source that is consulted therefore counts the bytes before its lines when a question
first needs them, and keeps the numbers for the questions that follow.
-/

namespace CartLua

namespace Text

def byteCount (cs : List Char) : Nat := cs.foldr (fun c bytes => c.utf8Size + bytes) 0

end Text

namespace Source

/-- The numbers of bytes before some lines, the first of which begins at `start` behind `bytes`
bytes. -/
def lineBytesFrom (source : Source) (bytes start : Nat) : List LineStart → List Nat
  | [] => [bytes]
  | next :: later =>
      bytes ::
        source.lineBytesFrom (bytes + Text.byteCount (source.slice start next.offset)) next.offset
          later

def lineBytes (source : Source) : List Nat := source.lineBytesFrom 0 0 source.laterLines

end Source

inductive PlaceQuery
  | byteOffset (offset : Int)
  | location (offset : Int)
  deriving DecidableEq, Repr

/-- A source, and the numbers of bytes before its lines once they have been counted. -/
structure Consultation where
  source : Source
  lineBytes : Option (List Nat)

namespace Consultation

def ofSource (source : Source) : Consultation := ⟨source, none⟩

/-- The number of bytes before an offset; outside the text, before its nearer end.  There is none
when the line of the offset was not counted. -/
def byteOffset (c : Consultation) (offset : Int) : Option Nat × Consultation :=
  let position := c.source.clamp offset
  if c.source.ascii then (some position, c)
  else
    let lineBytes := c.lineBytes.getD c.source.lineBytes
    let (number, line) := c.source.lineOf position
    (lineBytes[number - 1]?.map (· + Text.byteCount (c.source.slice line.offset position)),
      { c with lineBytes := some lineBytes })

def location (c : Consultation) (offset : Int) : Option Location × Consultation :=
  let (line, column) := c.source.lineAndColumn offset
  let (bytes, c) := c.byteOffset offset
  (bytes.map fun bytes : Nat =>
    { filename := c.source.filename
      line := line
      column := column
      offset := offset
      byteOffset := some bytes }, c)

def after (c : Consultation) : PlaceQuery → Consultation
  | .byteOffset offset => (c.byteOffset offset).2
  | .location offset => (c.location offset).2

def afterAll (c : Consultation) (queries : List PlaceQuery) : Consultation := queries.foldl after c

example : ((ofSource (.ofChars "a★\nb".toList "cart")).byteOffset 3).1 = some 5 := by decide

end Consultation

end CartLua
