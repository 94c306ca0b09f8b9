import CartLua.Text.Printable

/-!
# Quoted text

How a literal, a character set or a file name is shown in a description: between
single quotes, or between double quotes when it holds a single one and no double
one, with everything that cannot be printed escaped.
-/

namespace CartLua.Text

/-- The lower-case hexadecimal digits of `n`, filled up to `width` with zeros. -/
def hexPadded (width n : Nat) : List Char :=
  let digits := Nat.toDigits 16 n
  List.replicate (width - digits.length) '0' ++ digits

/-- The escape of an unprintable character: `\n`, `\r` and `\t` by letter, the
others by their number in the shortest of the three forms that holds it. -/
def escapeUnprintable (c : Char) : List Char :=
  if c = '\n' then ['\\', 'n']
  else if c = '\r' then ['\\', 'r']
  else if c = '\t' then ['\\', 't']
  else if c.toNat < 0x100 then '\\' :: 'x' :: hexPadded 2 c.toNat
  else if c.toNat < 0x10000 then '\\' :: 'u' :: hexPadded 4 c.toNat
  else '\\' :: 'U' :: hexPadded 8 c.toNat

def escapeQuoted (mark c : Char) : List Char :=
  if c = mark || c = '\\' then ['\\', c]
  else if isPrintable c then [c]
  else escapeUnprintable c

def quoteMark (cs : List Char) : Char :=
  if cs.contains '\'' && !cs.contains '"' then '"' else '\''

def quoted (cs : List Char) : List Char :=
  let mark := quoteMark cs
  mark :: cs.flatMap (escapeQuoted mark) ++ [mark]

def quotedString (s : String) : String :=
  String.ofList (quoted s.toList)

end CartLua.Text
