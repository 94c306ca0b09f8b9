import CartLua.Grammar.Pattern

/-!
# Building patterns

Shapes that grammars use again and again: committed sequences, lists with
separators, and room for padding around an item.
-/

namespace CartLua.Pattern

def one (chars : String) : Pattern := terminal (.oneOf chars.toList false)

def noneOf (chars : String) : Pattern := terminal (.oneOf chars.toList true)

def text (s : String) : Pattern := terminal (.literal s.toList false)

/-- These characters in a row, in upper or lower case. -/
def anyCaseText (s : String) : Pattern := terminal (.literal s.toList true)

def identifier : Pattern := terminal .identifier

def endOfInput : Pattern := terminal .endOfInput

def endOfLineOrInput : Pattern := terminal (.endOfLine true)

/-- A rule by its name. -/
def call (name : String) : Pattern := ref none name

/-- Several patterns in order; a single one is not wrapped. -/
def inOrder : List Pattern → Pattern
  | [item] => item
  | items => seq items

def many (items : List Pattern) : Pattern := star none (inOrder items)

def many1 (items : List Pattern) : Pattern := plus none (inOrder items)

def optional (items : List Pattern) : Pattern := opt (inOrder items)

def upTo (count : Int) (items : List Pattern) : Pattern := atMost count (inOrder items)

/-- A place where several patterns would match in order. -/
def ahead (items : List Pattern) : Pattern := lookahead false (inOrder items)

def notAhead (items : List Pattern) : Pattern := lookahead true (inOrder items)

/-- A body repeated until `stop` matches; without a body any character is
passed. -/
def untilMatch (stop : Pattern) : List Pattern → Pattern
  | [] => skipTo stop
  | item :: items => repeatUntil none stop (inOrder (item :: items))

/-- Several parts in order, all of them committed. -/
def mustAll (items : List Pattern) : Pattern := inOrder (items.map must)

/-- After `first`, the parts that follow are committed. -/
def ifMust (first : Pattern) (rest : List Pattern) : Pattern := seq (first :: rest.map must)

def pad (item padding : Pattern) : Pattern := seq [star none padding, item, star none padding]

/-- Padding, and perhaps an item with padding after it. -/
def padOpt (item padding : Pattern) : Pattern :=
  seq [star none padding, opt (seq [item, star none padding])]

def listOf (item separator padding : Pattern) : Pattern :=
  seq [item, star none (seq [pad separator padding, item])]

/-- Items with separators between them; after a separator an item is
committed. -/
def listMust (item separator padding : Pattern) : Pattern :=
  seq [item, star none (ifMust (pad separator padding) [item])]

/-- Items with separators between them and perhaps one at the end. -/
def listTail (item separator padding : Pattern) : Pattern :=
  seq [listOf item separator padding, opt (seq [star none padding, separator])]

@[simp]
theorem inOrder_singleton (item : Pattern) : inOrder [item] = item := rfl

end CartLua.Pattern
