import Mathlib.Order.Bounds.Defs
import CartLua.Suggestion

/-!
# The distance of words

How far apart two words are needs no table to be said: it is the least number of single-character
changes that lead from one to the other, where the changes may be made in any order and at any
place.  The table is filled by comparing last characters only.  That this loses nothing is the
point here: one change of a word, wherever it is, moves the entry of the table by one at most.

The entries are told by a function on words that are read from their ends, since a row grows with
the last character of a word.
-/

namespace CartLua.Suggestion

/-- One character put in, taken out or replaced by another. -/
inductive Changes : List Char → List Char → Prop
  | insert (before after : List Char) (c : Char) : Changes (before ++ after) (before ++ c :: after)
  | delete (before after : List Char) (c : Char) : Changes (before ++ c :: after) (before ++ after)
  | substitute (before after : List Char) (c d : Char) :
      Changes (before ++ c :: after) (before ++ d :: after)

/-- A number of changes that lead from one word to another. -/
inductive Script : Nat → List Char → List Char → Prop
  | done (word : List Char) : Script 0 word word
  | change {count : Nat} {word next last : List Char} (first : Changes word next)
      (later : Script count next last) : Script (count + 1) word last

variable {a b c : List Char} {m n : Nat}

namespace Changes

theorem symm (h : Changes a b) : Changes b a := by
  cases h with
  | insert before after c => exact .delete before after c
  | delete before after c => exact .insert before after c
  | substitute before after c d => exact .substitute before after d c

/-- A change of words is one of the words read from their ends. -/
theorem reverse (h : Changes a b) : Changes a.reverse b.reverse := by
  cases h with
  | insert before after c => simpa using insert after.reverse before.reverse c
  | delete before after c => simpa using delete after.reverse before.reverse c
  | substitute before after c d => simpa using substitute after.reverse before.reverse c d

theorem cons (c : Char) (h : Changes a b) : Changes (c :: a) (c :: b) := by
  cases h with
  | insert before after d => exact insert (c :: before) after d
  | delete before after d => exact delete (c :: before) after d
  | substitute before after d e => exact substitute (c :: before) after d e

end Changes

namespace Script

theorem single (h : Changes a b) : Script 1 a b := .change h (.done b)

theorem trans (hab : Script m a b) (hbc : Script n b c) : Script (m + n) a c := by
  induction hab with
  | done => simpa using hbc
  | change first _ ih =>
      rw [Nat.add_right_comm]
      exact .change first (ih hbc)

theorem symm (h : Script n a b) : Script n b a := by
  induction h with
  | done word => exact .done word
  | change first _ ih => exact ih.trans (single first.symm)

theorem reverse (h : Script n a b) : Script n a.reverse b.reverse := by
  induction h with
  | done word => exact .done word.reverse
  | change first _ ih => exact .change first.reverse ih

theorem cons (c : Char) (h : Script n a b) : Script n (c :: a) (c :: b) := by
  induction h with
  | done word => exact .done (c :: word)
  | change first _ ih => exact .change (first.cons c) ih

/-- A word is made of nothing by putting in its characters. -/
theorem of_nil (word : List Char) : Script word.length [] word := by
  induction word with
  | nil => exact .done []
  | cons c word ih => exact (ih.trans (single (.insert [] word c)))

theorem eq_of_zero (h : Script 0 a b) : a = b := by
  cases h
  rfl

end Script

/-! ## Words read from their ends -/

/-- The entry of the table for two words that are read from their ends. -/
def lastEntry : List Char → List Char → Nat
  | [], other => other.length
  | word, [] => word.length
  | c :: word, d :: other =>
      min (min (lastEntry word (d :: other) + 1) (lastEntry (c :: word) other + 1))
        (lastEntry word other + if c = d then 0 else 1)
termination_by word other => word.length + other.length

@[simp]
theorem lastEntry_nil_left (other : List Char) : lastEntry [] other = other.length := by
  rw [lastEntry]

@[simp]
theorem lastEntry_nil_right (word : List Char) : lastEntry word [] = word.length := by
  cases word <;> simp [lastEntry]

theorem lastEntry_cons_cons (c d : Char) (word other : List Char) :
    lastEntry (c :: word) (d :: other) =
      min (min (lastEntry word (d :: other) + 1) (lastEntry (c :: word) other + 1))
        (lastEntry word other + if c = d then 0 else 1) := by
  rw [lastEntry]

theorem lastEntry_self (word : List Char) : lastEntry word word = 0 := by
  induction word with
  | nil => simp
  | cons c word ih => simp [lastEntry_cons_cons, ih]

/-- As many changes as the entry says lead from one word to the other. -/
theorem script_lastEntry (word other : List Char) : Script (lastEntry word other) word other := by
  fun_induction lastEntry word other with
  | case1 other => exact .of_nil other
  | case2 word => exact (Script.of_nil word).symm
  | case3 c word d other hdelete hinsert hkeep =>
      have hdeleted : Script (lastEntry word (d :: other) + 1) (c :: word) (d :: other) :=
        .change (.delete [] word c) hdelete
      have hinserted : Script (lastEntry (c :: word) other + 1) (c :: word) (d :: other) :=
        hinsert.trans (.single (.insert [] other d))
      have hkept : Script (lastEntry word other + if c = d then 0 else 1) (c :: word)
          (d :: other) := by
        by_cases hsame : c = d
        · subst hsame
          simpa using hkeep.cons c
        · rw [if_neg hsame]
          exact (hkeep.cons c).trans (.single (.substitute [] other c d))
      -- Each way to settle the last characters has a script; the entry is the shortest of them.
      have hleast : ∀ deleted inserted kept : Nat, min (min deleted inserted) kept = deleted ∨
          min (min deleted inserted) kept = inserted ∨ min (min deleted inserted) kept = kept := by
        omega
      rcases hleast (lastEntry word (d :: other) + 1) (lastEntry (c :: word) other + 1)
        (lastEntry word other + if c = d then 0 else 1) with hmin | hmin | hmin
      · rwa [hmin]
      · rwa [hmin]
      · rwa [hmin]

/-- One character more moves an entry up by one at most. -/
theorem lastEntry_cons_left_le (c : Char) (word other : List Char) :
    lastEntry (c :: word) other ≤ lastEntry word other + 1 := by
  cases other with
  | nil => simp
  | cons d other =>
      rw [lastEntry_cons_cons]
      omega

theorem lastEntry_cons_right_le (d : Char) (word other : List Char) :
    lastEntry word (d :: other) ≤ lastEntry word other + 1 := by
  cases word with
  | nil => simp
  | cons c word =>
      rw [lastEntry_cons_cons]
      omega

/-- One character less moves an entry up by one at most. -/
theorem lastEntry_le_cons_right (d : Char) (word other : List Char) :
    lastEntry word other ≤ lastEntry word (d :: other) + 1 := by
  induction word with
  | nil =>
      rw [lastEntry_nil_left, lastEntry_nil_left, List.length_cons]
      omega
  | cons c word ih =>
      have hleft := lastEntry_cons_left_le c word other
      rw [lastEntry_cons_cons]
      omega

/-- Another last character moves an entry up by one at most. -/
theorem lastEntry_cons_le_cons (c d : Char) (word other : List Char) :
    lastEntry word (d :: other) ≤ lastEntry word (c :: other) + 1 := by
  induction word with
  | nil => simp
  | cons e word ih =>
      rw [lastEntry_cons_cons, lastEntry_cons_cons]
      split <;> split <;> omega

/-- What moves every entry by one at most still does so behind another character. -/
theorem lastEntry_cons_le_of_le (h : ∀ word, lastEntry word b ≤ lastEntry word a + 1) (d : Char)
    (word : List Char) : lastEntry word (d :: b) ≤ lastEntry word (d :: a) + 1 := by
  induction word with
  | nil => simpa using h []
  | cons c word ih =>
      -- Two of the neighbouring entries are without `d`; the third one has it, for a shorter word.
      have hlonger := h (c :: word)
      have hword := h word
      rw [lastEntry_cons_cons, lastEntry_cons_cons]
      omega

theorem lastEntry_append_le_of_le (before : List Char)
    (h : ∀ word, lastEntry word b ≤ lastEntry word a + 1) (word : List Char) :
    lastEntry word (before ++ b) ≤ lastEntry word (before ++ a) + 1 := by
  induction before generalizing word with
  | nil => exact h word
  | cons d before ih => exact lastEntry_cons_le_of_le ih d word

/-- A change, wherever it is, moves an entry up by one at most. -/
theorem lastEntry_le_of_changes (h : Changes a b) (word : List Char) :
    lastEntry word b ≤ lastEntry word a + 1 := by
  cases h with
  | insert before after c =>
      exact lastEntry_append_le_of_le before (fun word => lastEntry_cons_right_le c word after) word
  | delete before after c =>
      exact lastEntry_append_le_of_le before (fun word => lastEntry_le_cons_right c word after) word
  | substitute before after c d =>
      exact lastEntry_append_le_of_le before (fun word => lastEntry_cons_le_cons c d word after)
        word

theorem lastEntry_le_of_script (h : Script n a b) (word : List Char) :
    lastEntry word b ≤ lastEntry word a + n := by
  induction h with
  | done => exact Nat.le_refl _
  | change first _ ih =>
      have hfirst := lastEntry_le_of_changes first word
      omega

/-- The entry is the least number of changes. -/
theorem isLeast_lastEntry (word other : List Char) :
    IsLeast {count | Script count word other} (lastEntry word other) := by
  refine ⟨script_lastEntry word other, fun count hscript => ?_⟩
  have hle := lastEntry_le_of_script hscript word
  rwa [lastEntry_self, Nat.zero_add] at hle

/-! ## Rows -/

/-- The row of a word, from the entry on that belongs to the beginning `front` of the other word,
which goes on with `rest`.  The word and the beginning are read from their ends. -/
def rowFrom (word front : List Char) : List Char → List Nat
  | [] => [lastEntry word front]
  | d :: rest => lastEntry word front :: rowFrom word (d :: front) rest

theorem rowFrom_eq_cons (word front rest : List Char) :
    rowFrom word front rest = lastEntry word front :: (rowFrom word front rest).tail := by
  cases rest <;> rfl

/-- Before any character of the word the entries count the characters of the beginnings. -/
theorem rowFrom_nil (front rest : List Char) :
    rowFrom [] front rest = List.range' front.length (rest.length + 1) := by
  induction rest generalizing front with
  | nil => simp [rowFrom]
  | cons d rest ih =>
      rw [rowFrom, ih, lastEntry_nil_left, List.length_cons, List.length_cons,
        List.range'_succ (n := rest.length + 1)]

/-- The last entry belongs to the whole other word. -/
theorem getLastD_rowFrom (word front rest : List Char) (default : Nat) :
    (rowFrom word front rest).getLastD default = lastEntry word (rest.reverse ++ front) := by
  induction rest generalizing front default with
  | nil => rfl
  | cons d rest ih =>
      rw [rowFrom, List.getLastD_cons, ih, List.reverse_cons, List.append_assoc,
        List.singleton_append]

/-- Behind the entry of a beginning, the next row goes on with the entries of the longer word. -/
theorem extendRow_rowFrom (c : Char) (word front rest : List Char) :
    extendRow c (lastEntry word front) (lastEntry (c :: word) front) rest
        (rowFrom word front rest).tail =
      (rowFrom (c :: word) front rest).tail := by
  induction rest generalizing front with
  | nil => rfl
  | cons d rest ih =>
      rw [rowFrom, rowFrom, List.tail_cons, List.tail_cons, rowFrom_eq_cons word,
        rowFrom_eq_cons (c :: word), extendRow, ← ih, lastEntry_cons_cons c d]

theorem nextRow_rowFrom (c : Char) (word other : List Char) :
    nextRow other (rowFrom word [] other) c = rowFrom (c :: word) [] other := by
  have hhead : lastEntry word [] + 1 = lastEntry (c :: word) [] := by simp
  rw [rowFrom_eq_cons word, nextRow, hhead, extendRow_rowFrom, ← rowFrom_eq_cons]

/-- The row that is computed is the row of the word. -/
theorem distanceRow_eq (word other : List Char) :
    distanceRow word other = rowFrom word.reverse [] other := by
  -- Rows are made from the row of any beginning, not only from the first one.
  have hrows : ∀ before : List Char, word.foldl (nextRow other) (rowFrom before [] other) =
      rowFrom (word.reverse ++ before) [] other := by
    induction word with
    | nil => exact fun _ => rfl
    | cons c word ih =>
        intro before
        rw [List.foldl_cons, nextRow_rowFrom, ih, List.reverse_cons, List.append_assoc,
          List.singleton_append]
  have hfirst := rowFrom_nil [] other
  rw [List.length_nil, ← List.range_eq_range'] at hfirst
  rw [distanceRow, ← hfirst, hrows, List.append_nil]

theorem distanceToShorter_eq (word other : List Char) :
    distanceToShorter word other = lastEntry word.reverse other.reverse := by
  rw [distanceToShorter]
  split
  · rename_i hempty
    rw [List.isEmpty_iff.mp hempty, List.reverse_nil, lastEntry_nil_right, List.length_reverse]
  · rw [distanceRow_eq, getLastD_rowFrom, List.append_nil]

/-! ## The distance -/

theorem isLeast_distanceToShorter (word other : List Char) :
    IsLeast {count | Script count word other} (distanceToShorter word other) := by
  have hscripts : {count | Script count word other} =
      {count | Script count word.reverse other.reverse} :=
    Set.ext fun count =>
      ⟨Script.reverse, fun h => by
        rw [← word.reverse_reverse, ← other.reverse_reverse]
        exact Script.reverse h⟩
  rw [hscripts, distanceToShorter_eq]
  exact isLeast_lastEntry word.reverse other.reverse

/-- The distance is the least number of changes, whichever word is the longer one. -/
theorem isLeast_editDistance (word other : List Char) :
    IsLeast {count | Script count word other} (editDistance word other) := by
  rw [editDistance]
  split
  · have hscripts : {count | Script count word other} = {count | Script count other word} :=
      Set.ext fun count => ⟨Script.symm, Script.symm⟩
    rw [hscripts]
    exact isLeast_distanceToShorter other word
  · exact isLeast_distanceToShorter word other

theorem editDistance_le (h : Script n a b) : editDistance a b ≤ n :=
  (isLeast_editDistance a b).2 h

theorem script_editDistance (word other : List Char) :
    Script (editDistance word other) word other :=
  (isLeast_editDistance word other).1

theorem editDistance_comm (word other : List Char) :
    editDistance word other = editDistance other word :=
  Nat.le_antisymm (editDistance_le (script_editDistance other word).symm)
    (editDistance_le (script_editDistance word other).symm)

theorem editDistance_eq_zero_iff (word other : List Char) :
    editDistance word other = 0 ↔ word = other := by
  constructor
  · intro hzero
    have hscript := script_editDistance word other
    rw [hzero] at hscript
    exact hscript.eq_of_zero
  · rintro rfl
    exact Nat.eq_zero_of_le_zero (editDistance_le (.done word))

theorem editDistance_triangle (word between other : List Char) :
    editDistance word other ≤ editDistance word between + editDistance between other :=
  editDistance_le ((script_editDistance word between).trans (script_editDistance between other))

end CartLua.Suggestion
