import Mathlib.Data.List.Sort
import CartLua.Sorting

/-!
# Sorted lists

Sorting by a Boolean order is the insertion sort of the relation that the order decides, so what is
known of insertion sort holds of it: it rearranges a list, puts it in order, and leaves a list in
order as it is.  What a caller also relies on is that entries of one key stay as they came.
-/

namespace CartLua

variable {α β : Type} {precedes : α → α → Bool} {a : α} {as bs : List α}

theorem insertSorted_eq_orderedInsert (precedes : α → α → Bool) (a : α) (bs : List α) :
    insertSorted precedes a bs = bs.orderedInsert (fun x y => precedes x y = true) a := by
  induction bs with
  | nil => rfl
  | cons b bs ih => rw [insertSorted, List.orderedInsert_cons, ih]

theorem sortBy_eq_insertionSort (precedes : α → α → Bool) (as : List α) :
    sortBy precedes as = as.insertionSort fun x y => precedes x y = true := by
  induction as with
  | nil => rfl
  | cons a as ih => rw [sortBy, List.insertionSort_cons, ih, insertSorted_eq_orderedInsert]

theorem sortBy_perm (precedes : α → α → Bool) (as : List α) : (sortBy precedes as).Perm as :=
  sortBy_eq_insertionSort precedes as ▸ List.perm_insertionSort _ as

@[simp]
theorem mem_sortBy : a ∈ sortBy precedes as ↔ a ∈ as := (sortBy_perm precedes as).mem_iff

@[simp]
theorem length_sortBy (precedes : α → α → Bool) (as : List α) :
    (sortBy precedes as).length = as.length :=
  (sortBy_perm precedes as).length_eq

theorem pairwise_sortBy
    (htrans : ∀ a b c, precedes a b = true → precedes b c = true → precedes a c = true)
    (htotal : ∀ a b, precedes a b = true ∨ precedes b a = true) (as : List α) :
    (sortBy precedes as).Pairwise fun x y => precedes x y = true := by
  have : IsTrans α fun x y => precedes x y = true := ⟨htrans⟩
  have : Std.Total fun x y => precedes x y = true := ⟨htotal⟩
  exact sortBy_eq_insertionSort precedes as ▸ List.pairwise_insertionSort _ as

theorem sortBy_eq_self (has : as.Pairwise fun x y => precedes x y = true) :
    sortBy precedes as = as :=
  (sortBy_eq_insertionSort precedes as).trans has.insertionSort_eq

/-- Sorting does not depend on what else the entries carry. -/
theorem sortBy_map (precedes : β → β → Bool) (f : α → β) (as : List α) :
    sortBy precedes (as.map f) = (sortBy (fun a b => precedes (f a) (f b)) as).map f := by
  rw [sortBy_eq_insertionSort, sortBy_eq_insertionSort]
  exact (List.map_insertionSort _ _ f as fun _ _ _ _ => Iff.rfl).symm

theorem pairwise_insertSorted_of_forall {key : α → Nat} {earlier : α → α → Prop}
    (ha : ∀ b ∈ bs, earlier a b)
    (hbs : bs.Pairwise fun x y => key x < key y ∨ key x = key y ∧ earlier x y) :
    (insertSorted (fun x y => key x ≤ key y) a bs).Pairwise fun x y =>
      key x < key y ∨ key x = key y ∧ earlier x y := by
  induction bs with
  | nil => exact List.pairwise_singleton _ _
  | cons b bs ih =>
      have hlater := List.pairwise_cons.mp hbs
      rw [insertSorted]
      by_cases hab : key a ≤ key b
      · rw [if_pos (by simpa using hab), List.pairwise_cons]
        refine ⟨fun y hy => ?_, hbs⟩
        have hkey : key b ≤ key y := by
          rcases List.mem_cons.mp hy with rfl | hy
          · exact Nat.le_refl _
          · have := hlater.1 y hy
            omega
        rcases Nat.lt_or_eq_of_le (Nat.le_trans hab hkey) with hlt | heq
        · exact .inl hlt
        · exact .inr ⟨heq, ha y hy⟩
      · rw [if_neg (by simpa using hab), List.pairwise_cons]
        refine ⟨fun y hy => ?_, ih (fun y hy => ha y (List.mem_cons_of_mem b hy)) hlater.2⟩
        rw [insertSorted_eq_orderedInsert, List.mem_orderedInsert] at hy
        rcases hy with rfl | hy
        · exact .inl (Nat.lt_of_not_le hab)
        · exact hlater.1 y hy

/-- Sorting by a key leaves entries with one key as they came. -/
theorem pairwise_sortBy_of_pairwise {key : α → Nat} {earlier : α → α → Prop}
    (has : as.Pairwise earlier) :
    (sortBy (fun a b => key a ≤ key b) as).Pairwise fun a b =>
      key a < key b ∨ key a = key b ∧ earlier a b := by
  induction as with
  | nil => exact List.Pairwise.nil
  | cons a as ih =>
      rw [List.pairwise_cons] at has
      exact pairwise_insertSorted_of_forall (fun b hb => has.1 b (mem_sortBy.mp hb)) (ih has.2)

theorem mem_insertName {a name : String} {names : List String} :
    a ∈ insertName name names ↔ a = name ∨ a ∈ names := by
  induction names with
  | nil => simp [insertName]
  | cons other names ih =>
      rw [insertName]
      split
      · rename_i heq
        simp [heq]
      · split
        · simp
        · rw [List.mem_cons, ih, List.mem_cons]
          exact or_left_comm

@[simp]
theorem mem_sortedNames {a : String} {names : List String} : a ∈ sortedNames names ↔ a ∈ names := by
  induction names with
  | nil => simp [sortedNames]
  | cons name names ih =>
      have hcons : sortedNames (name :: names) = insertName name (sortedNames names) := rfl
      rw [hcons, mem_insertName, ih, List.mem_cons]

end CartLua
