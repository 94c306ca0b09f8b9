import CartLua.Dialect.Words
import CartLua.Grammar.Basic
import CartLua.Grammar.Combinators

/-!
# Lexical rules of Lua

Blanks, comments, keywords, names, strings and numerals.  A rule takes care of the
padding between its own parts and never consumes padding before or after itself;
other rules place `seps` where padding is allowed.
-/

namespace CartLua.Dialect

open Pattern

/-! ## Padding -/

def shortComment : Rule :=
  { name := "short_comment"
    body := untilMatch endOfLineOrInput [] }

def longString : Rule :=
  { name := "long_string"
    body := terminal .longBracket }

/-- Two dashes, and then a long bracket or the rest of the line. -/
def comment : Rule :=
  { name := "comment"
    body := inOrder [text "--", choice [call "long_string", call "short_comment"]]
    quiet := true }

def sep : Rule :=
  { name := "sep"
    body := choice [one spaces, call "comment"]
    padding := true }

def seps : Rule :=
  { name := "seps"
    body := many [call "sep"]
    padding := true }

/-! ## Words -/

/-- A place where a word ends. -/
def wordEnd : Pattern := notAhead [one nameCharacters]

def keyName (word : String) : String := "key_" ++ word

def key (word : String) : Pattern := call (keyName word)

def keyRule (word : String) : Rule :=
  { name := keyName word
    body := inOrder [text word, wordEnd] }

/-- Any keyword.  The longest ones are tried first, since the choice is not
reconsidered when a word goes on. -/
def keyword : Rule :=
  { name := "keyword"
    body := inOrder [choice ((sortLongestFirst keywords).map text), wordEnd] }

def nameRule : Rule :=
  { name := "name"
    body := inOrder [notAhead [call "keyword"], identifier] }

def threeDots : Rule :=
  { name := "three_dots"
    body := text "..." }

/-! ## Strings -/

/-- The character of an escape that stands for one character. -/
def singleEscape : Pattern := one "abfnrtv\\\"'0"

/-- A line break of one or two characters. -/
def lineBreak : Pattern := choice [text "\r\n", text "\n\r", one "\r\n"]

/-- The escape that skips the blanks after it. -/
def skipSpaces : Pattern := inOrder [one "z", many [one spaces]]

def hexByte : Pattern := ifMust (one "x") [one hexDigits, one hexDigits]

/-- A character by up to three decimal digits. -/
def decimalByte : Pattern := ifMust (one digits) [upTo 2 [one digits]]

def unicodeEscape : Pattern :=
  ifMust (one "u") [one "\x7b", many1 [one hexDigits], one "\x7d"]

def escaped : Rule :=
  { name := "escaped"
    body :=
      ifMust (one "\\")
        [choice [hexByte, decimalByte, unicodeEscape, singleEscape, lineBreak, skipSpaces]] }

/-- An escape or any character but a line end. -/
def characterRule : Rule :=
  { name := "character"
    body := choice [call "escaped", noneOf "\r\n"] }

def doubleQuoteString : Rule :=
  { name := "double_quote_string"
    body := ifMust (one "\"") [untilMatch (one "\"") [call "character"]] }

def singleQuoteString : Rule :=
  { name := "single_quote_string"
    body := ifMust (one "'") [untilMatch (one "'") [call "character"]] }

def literalString : Rule :=
  { name := "literal_string"
    body :=
      choice [call "double_quote_string", call "single_quote_string", call "long_string"] }

/-! ## Numerals -/

def exponent (marks : String) : Pattern :=
  optional [ifMust (one marks) [optional [one "+-"], many1 [one digits]]]

/-- Digits with an optional fraction, or a fraction alone, and an optional
exponent. -/
def numeralOf (digit : Pattern) (marks : String) : Pattern :=
  choice
    [inOrder [many1 [digit], optional [one ".", many [digit]], exponent marks],
      inOrder [ifMust (one ".") [many1 [digit]], exponent marks]]

def decimal : Rule :=
  { name := "decimal"
    body := numeralOf (one digits) "eE" }

def hexadecimal : Rule :=
  { name := "hexadecimal"
    body := ifMust (anyCaseText "0x") [numeralOf (one hexDigits) "pP"] }

def numeral : Rule :=
  { name := "numeral"
    body := choice [call "hexadecimal", call "decimal"] }

/-- A first line that names an interpreter. -/
def interpreter : Rule :=
  { name := "interpreter"
    body := inOrder [one "#", untilMatch endOfLineOrInput []] }

def lexicalRules : List Rule :=
  [shortComment, longString, comment, sep, seps] ++ keywords.map keyRule ++
    [keyword, nameRule, threeDots, escaped, characterRule, doubleQuoteString, singleQuoteString,
      literalString, decimal, hexadecimal, numeral, interpreter]

/-! ## Shapes for other rules -/

/-- Padding. -/
def gap : Pattern := call "seps"

/-- An operator of one character that none of the excluded ones follows. -/
def operatorOne (operator excluded : String) : Pattern :=
  inOrder [one operator, notAhead [one excluded]]

def operatorText (operator excluded : String) : Pattern :=
  inOrder [text operator, notAhead [one excluded]]

def beforeKeyword (words : List String) : Pattern :=
  choice (words.map fun word => ahead [key word])

end CartLua.Dialect
