import CartLua.Sorting

/-!
# Words and characters of Lua

The keywords of the language and the sets of characters that its tokens are made
of.
-/

namespace CartLua.Dialect

def keywords : List String :=
  ["and", "break", "do", "else", "elseif", "end", "false", "for", "function", "goto", "if", "in",
    "local", "nil", "not", "or", "repeat", "return", "then", "true", "until", "while"]

/-- Whether a word is longer than another one, or as long and not behind it in the
alphabet. -/
def longerFirst (a b : String) : Bool :=
  b.length < a.length || (a.length == b.length && a ≤ b)

/-- Words with the longer ones first, so that none comes after its own
beginning. -/
def sortLongestFirst (words : List String) : List String := sortBy longerFirst words

def digits : String := "0123456789"

def hexDigits : String := "0123456789abcdefABCDEF"

/-- The blanks that may stand between tokens. -/
def spaces : String := " \t\n\r\x0b\x0c"

/-- The characters that continue a name. -/
def nameCharacters : String :=
  "abcdefghijklmnopqrstuvwxyzABCDEFGHIJKLMNOPQRSTUVWXYZ_0123456789"

def reassignmentOperators : List String := ["+=", "-=", "*=", "/=", "%="]

end CartLua.Dialect
