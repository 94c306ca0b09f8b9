import CartLua.Text.CaseMap
import CartLua.Text.Cursor
import CartLua.Text.Quoted

/-!
# Terminals

The patterns that look at characters.  A terminal is tried at one offset of the
text, and how that ends depends on nothing else.
-/

namespace CartLua

inductive Terminal
  | literal (text : List Char) (anyCase : Bool)
  | oneOf (chars : List Char) (negated : Bool)
  /-- A letter or underscore followed by letters, digits and underscores. -/
  | identifier
  | endOfInput
  /-- A line feed, perhaps after a carriage return; with `orEnd` also the end of
  the text. -/
  | endOfLine (orEnd : Bool)
  /-- `[[`, or `[=[` with any number of signs, up to the brackets that match. -/
  | longBracket
  deriving DecidableEq, Repr, Inhabited

inductive Scan
  | take (count : Nat)
  | stay
  | miss
  /-- A long bracket of this level is opened and never closed. -/
  | unclosed (level : Nat)
  deriving DecidableEq, Repr, Inhabited

namespace Terminal

def isIdentifierFirst (c : Char) : Bool := c.isAlpha || c = '_'

def isIdentifierPart (c : Char) : Bool := isIdentifierFirst c || c.isDigit

def closingBracket (level : Nat) : List Char :=
  ']' :: List.replicate level '=' ++ [']']

/-- The outcome of a long bracket, once the opening bracket is known to begin. -/
def scanLongBracket (text : Array Char) (offset : Nat) : Scan :=
  let cursor := Text.runEnd text (· == '=') (offset + 1)
  if Text.startsAt text ['['] cursor then
    let level := cursor - offset - 1
    let closing := closingBracket level
    match Text.find? text closing (cursor + 1) with
    | some found => .take (found + closing.length - offset)
    | none => .unclosed level
  else .miss

def scan (text : Array Char) (offset : Nat) : Terminal → Scan
  | literal cs false => if Text.startsAt text cs offset then .take cs.length else .miss
  | literal cs true =>
      if Text.lower (text.extract offset (offset + cs.length)).toList = Text.lower cs then
        .take cs.length
      else .miss
  | oneOf chars negated =>
      match text[offset]? with
      | some c => if chars.contains c != negated then .take 1 else .miss
      | none => .miss
  | identifier =>
      match text[offset]? with
      | some c =>
          if isIdentifierFirst c then
            .take (Text.runEnd text isIdentifierPart (offset + 1) - offset)
          else .miss
      | none => .miss
  | endOfInput => if text.size ≤ offset then .stay else .miss
  | endOfLine orEnd =>
      if orEnd && decide (text.size ≤ offset) then .stay
      else if Text.startsAt text ['\n'] offset then .take 1
      else if Text.startsAt text ['\r', '\n'] offset then .take 2
      else .miss
  | longBracket =>
      if Text.startsAt text ['['] offset then scanLongBracket text offset else .miss

def describe : Terminal → String
  | literal text _ => String.ofList (Text.quoted text)
  | oneOf chars negated =>
      "[" ++ (if negated then "^" else "") ++ String.ofList (Text.quoted chars) ++ "]"
  | identifier => "identifier"
  | endOfInput => "end of input"
  | endOfLine orEnd => if orEnd then "end of line or input" else "end of line"
  | longBracket => "long bracket"

def kindName : Terminal → String
  | literal .. => "Literal"
  | oneOf .. => "CharSet"
  | identifier => "Identifier"
  | endOfInput => "EndOfInput"
  | endOfLine .. => "EndOfLine"
  | longBracket => "LongBracket"

def nullable : Terminal → Bool
  | literal text _ => text.isEmpty
  | endOfInput => true
  | endOfLine orEnd => orEnd
  | _ => false

end Terminal

end CartLua
