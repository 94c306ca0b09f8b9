/-!
# Journals

The messages that work leaves behind, in order, each from one part of the library
and of one level.
-/

namespace CartLua

inductive Level
  | debug
  | info
  | warning
  | error
  deriving DecidableEq, Repr, Inhabited

namespace Level

/-- More important levels have a higher rank. -/
def rank : Level → Nat
  | debug => 0
  | info => 1
  | warning => 2
  | error => 3

def name : Level → String
  | debug => "DEBUG"
  | info => "INFO"
  | warning => "WARNING"
  | error => "ERROR"

def ofName? (name : String) : Option Level :=
  [debug, info, warning, error].find? fun level => level.name == name

end Level

inductive Channel
  | parser
  | selfCheck
  | recorder
  | desugaring
  | knownFixes
  | fixer
  deriving DecidableEq, Repr, Inhabited

structure Entry where
  channel : Channel
  level : Level
  message : String
  deriving DecidableEq, Repr, Inhabited

abbrev Journal := List Entry

/-- The messages of a level and the levels above it. -/
def Journal.atLeast (journal : Journal) (level : Level) : Journal :=
  journal.filter fun entry => level.rank ≤ entry.level.rank

end CartLua
