/-!
# Reading a text at an offset

The text is an array of characters, each a Unicode scalar value, and every reader
is given the offset at which to look.  Nothing is ever read beyond the end.
-/

namespace CartLua.Text

def startsAt (text : Array Char) : List Char → Nat → Bool
  | [], offset => offset ≤ text.size
  | c :: cs, offset => text[offset]? == some c && startsAt text cs (offset + 1)

/-- The end of the run of characters with a property, at most `steps` long. -/
def runEndWithin (text : Array Char) (p : Char → Bool) : (steps : Nat) → Nat → Nat
  | 0, offset => offset
  | steps + 1, offset =>
      match text[offset]? with
      | some c => if p c then runEndWithin text p steps (offset + 1) else offset
      | none => offset

def runEnd (text : Array Char) (p : Char → Bool) (offset : Nat) : Nat :=
  runEndWithin text p (text.size - offset) offset

/-- The first of `steps + 1` places from an offset on where the characters
stand. -/
def findWithin (text : Array Char) (needle : List Char) : (steps : Nat) → Nat → Option Nat
  | 0, offset => if startsAt text needle offset then some offset else none
  | steps + 1, offset =>
      if startsAt text needle offset then some offset
      else findWithin text needle steps (offset + 1)

def find? (text : Array Char) (needle : List Char) (offset : Nat) : Option Nat :=
  findWithin text needle (text.size - offset) offset

/-- The characters stand at an offset exactly when they begin what follows it. -/
theorem startsAt_iff {text : Array Char} {cs : List Char} {offset : Nat} :
    startsAt text cs offset = true ↔
      offset ≤ text.size ∧ cs <+: text.toList.drop offset := by
  induction cs generalizing offset with
  | nil => simp [startsAt]
  | cons c cs ih =>
      by_cases hlt : offset < text.size
      · have hdrop : text.toList.drop offset = text[offset] :: text.toList.drop (offset + 1) := by
          rw [List.drop_eq_getElem_cons (by simpa using hlt)]
          simp
        rw [startsAt, hdrop, List.cons_prefix_cons, Array.getElem?_eq_getElem hlt]
        simp only [Bool.and_eq_true, beq_iff_eq, Option.some.injEq, ih]
        constructor
        · rintro ⟨heq, -, htail⟩
          exact ⟨Nat.le_of_lt hlt, heq.symm, htail⟩
        · rintro ⟨-, heq, htail⟩
          exact ⟨heq.symm, hlt, htail⟩
      · have hnone : text[offset]? = none := Array.getElem?_eq_none (Nat.le_of_not_lt hlt)
        have hdrop : text.toList.drop offset = [] :=
          List.drop_eq_nil_of_le (by simpa using Nat.le_of_not_lt hlt)
        simp [startsAt, hnone, hdrop]

end CartLua.Text
