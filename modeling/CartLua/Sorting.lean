/-!
# Stable sorting

Lists in this library are short or nearly sorted, so they are sorted by insertion.  Entries that
the order does not separate keep their places.
-/

namespace CartLua

variable {α : Type}

/-- An entry put before the first one that it does not have to follow. -/
def insertSorted (precedes : α → α → Bool) (a : α) : List α → List α
  | [] => [a]
  | b :: bs => if precedes a b then a :: b :: bs else b :: insertSorted precedes a bs

def sortBy (precedes : α → α → Bool) : List α → List α
  | [] => []
  | a :: as => insertSorted precedes a (sortBy precedes as)

/-- A name put into a list in order, unless it is there. -/
def insertName (name : String) : List String → List String
  | [] => [name]
  | other :: names =>
      if name = other then other :: names
      else if name < other then name :: other :: names
      else other :: insertName name names

/-- Names in order, each once. -/
def sortedNames (names : List String) : List String := names.foldr insertName []

end CartLua
