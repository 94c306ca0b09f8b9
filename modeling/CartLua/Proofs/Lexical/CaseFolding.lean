import CartLua.Proofs.Grammar.Sound

/-!
# Texts with the same lower-case form

Two texts that agree in lower case need not be of the same length, since `İ` becomes an `i` and a
combining dot.  This is the only letter that does so.  A text is therefore matched in some case
by fewer characters than it has just when an `i` stands right before a combining dot in it.
-/

namespace CartLua

namespace Text

open CaseMap

/-- Whether an `i` in either case stands right before a combining dot. -/
def dotted : List Char → Bool
  | c :: d :: cs => ((c == 'i' || c == 'I') && d == '\u0307') || dotted (d :: cs)
  | _ => false

/-- How often an `i` stands right before a combining dot. -/
def dottedPairs : List Char → Nat
  | c :: d :: cs => (if c = 'i' ∧ d = '\u0307' then 1 else 0) + dottedPairs (d :: cs)
  | _ => 0

variable {c d : Char} {s t before after : List Char}

/-! ## Single letters -/

/-- A character but the first one has the code point that it was made of. -/
theorem eq_of_toNat_ofNat {n k : Nat} (hk : 0 < k) (h : (Char.ofNat n).toNat = k) : n = k := by
  by_cases hvalid : n.isValidChar
  · have hn : Char.ofNat n = Char.ofNatAux n hvalid := dif_pos hvalid
    rw [hn] at h
    exact h
  · have hzero : Char.ofNat n = Char.ofNat 0 := dif_neg hvalid
    rw [hzero] at h
    exact absurd h (Nat.ne_of_lt hk)

/-- A character that no run reaches is only the image of itself. -/
theorem eq_of_shifted_eq {runs : List Run} {image : Nat} (himage : 0 < image)
    (hnone : ∀ run ∈ runs, image - run.shift < run.first ∨ run.last < image - run.shift)
    (h : (shifted runs c).toNat = image) : c.toNat = image := by
  rw [shifted] at h
  split at h
  · rename_i run hrun
    split at h
    · rename_i hwithin
      have hlast := List.find?_some hrun
      simp only [decide_eq_true_eq, Bool.and_eq_true] at hlast hwithin
      have hreached := eq_of_toNat_ofNat himage h
      have hout := hnone run (List.mem_of_find?_eq_some hrun)
      omega
    · exact h
  · exact h

/-- No run of letters reaches the `i` or the combining dot. -/
theorem misses_lowerRuns : ∀ image ∈ ([105, 775] : List Nat), ∀ run ∈ lowerRuns,
    image - run.shift < run.first ∨ run.last < image - run.shift := by
  decide +kernel

/-- The lower-case form of one character, in its place. -/
def lowerAt (before : List Char) (c : Char) (after : List Char) : List Char :=
  if c.toNat < 0x80 then [c.toLower]
  else lowerWide (borderedByCased before && !borderedByCased after) c

theorem lowerAfter_cons (before : List Char) (c : Char) (cs : List Char) :
    lowerAfter before (c :: cs) = lowerAt before c cs ++ lowerAfter (c :: before) cs :=
  rfl

theorem lowerAt_dotCapital : lowerAt before 'İ' after = ['i', '\u0307'] := rfl

/-- Any other character becomes one character, and only the letter itself becomes `i` or the
combining dot. -/
theorem exists_lowerAt_eq (hc : c ≠ 'İ') : ∃ d, lowerAt before c after = [d] ∧
    (d = 'i' → c = 'i' ∨ c = 'I') ∧ (d = '\u0307' → c = '\u0307') := by
  rw [lowerAt]
  split
  · rename_i hsmall
    have hall : (List.range 0x80).all (fun k => ((Char.ofNat k).toLower != 'i' ||
        Char.ofNat k == 'i' || Char.ofNat k == 'I') &&
          (Char.ofNat k).toLower != '\u0307') = true := by decide
    have hcase := List.all_eq_true.mp hall c.toNat (List.mem_range.mpr hsmall)
    rw [Char.ofNat_toNat] at hcase
    simp only [Bool.and_eq_true, Bool.or_eq_true, bne_iff_ne, beq_iff_eq] at hcase
    refine ⟨_, rfl, fun h => ?_, fun h => absurd h hcase.2⟩
    rcases hcase.1 with (hne | rfl) | rfl
    · exact absurd h hne
    · exact .inl rfl
    · exact .inr rfl
  · rename_i hlarge
    rw [lowerWide, if_neg hc]
    split
    · refine ⟨_, rfl, ?_⟩
      generalize (borderedByCased before && !borderedByCased after) = final
      cases final with
      | false => exact ⟨fun h => absurd h (by decide), fun h => absurd h (by decide)⟩
      | true => exact ⟨fun h => absurd h (by decide), fun h => absurd h (by decide)⟩
    · refine ⟨_, rfl, fun h => ?_, fun h => ?_⟩
      · have hletter := eq_of_shifted_eq (by decide : 0 < 105)
          (misses_lowerRuns 105 (by simp)) (congrArg Char.toNat h)
        omega
      · have hmark := eq_of_shifted_eq (by decide : 0 < 775)
          (misses_lowerRuns 775 (by simp)) (congrArg Char.toNat h)
        rw [← Char.ofNat_toNat c, hmark]

/-- The lower-case form is longer than the text by one character for each `İ`. -/
theorem length_lowerAfter (before s : List Char) :
    (lowerAfter before s).length = s.length + s.count 'İ' := by
  induction s generalizing before with
  | nil => rfl
  | cons c s ih =>
      rw [lowerAfter_cons, List.length_append, ih, List.length_cons]
      by_cases hc : c = 'İ'
      · subst hc
        rw [lowerAt_dotCapital, List.count_cons_self]
        simp only [List.length_cons, List.length_nil]
        omega
      · obtain ⟨d, hd, -⟩ := @exists_lowerAt_eq c before s hc
        rw [hd, List.count_cons_of_ne hc]
        simp only [List.length_cons, List.length_nil]
        omega

/-! ## How long a text of a given form is -/

theorem dottedPairs_cons_dot (s : List Char) : dottedPairs ('\u0307' :: s) = dottedPairs s := by
  cases s <;> simp [dottedPairs]

theorem dottedPairs_le_cons (c : Char) (s : List Char) : dottedPairs s ≤ dottedPairs (c :: s) := by
  cases s with
  | nil => exact Nat.zero_le _
  | cons d s => exact Nat.le_add_left _ _

/-- Every `İ` is found as a pair in the lower-case form. -/
theorem count_le_dottedPairs (before s : List Char) :
    s.count 'İ' ≤ dottedPairs (lowerAfter before s) := by
  induction s generalizing before with
  | nil => exact Nat.le_refl 0
  | cons c s ih =>
      have hrest := ih (c :: before)
      rw [lowerAfter_cons]
      by_cases hc : c = 'İ'
      · subst hc
        rw [lowerAt_dotCapital, List.count_cons_self, List.cons_append, List.singleton_append,
          dottedPairs, dottedPairs_cons_dot, if_pos ⟨rfl, rfl⟩]
        omega
      · obtain ⟨d, hd, -⟩ := @exists_lowerAt_eq c before s hc
        rw [hd, List.count_cons_of_ne hc]
        exact Nat.le_trans hrest (dottedPairs_le_cons d _)

/-- Without a pair in the text itself there are no others. -/
theorem dottedPairs_lowerAfter (before : List Char) (hs : dotted s = false) :
    dottedPairs (lowerAfter before s) = s.count 'İ' := by
  induction s generalizing before with
  | nil => rfl
  | cons c s ih =>
      have hrest : dotted s = false := by
        cases s with
        | nil => rfl
        | cons d s => exact (Bool.or_eq_false_iff.mp hs).2
      have hpairs := ih (c :: before) hrest
      rw [lowerAfter_cons]
      by_cases hc : c = 'İ'
      · subst hc
        rw [lowerAt_dotCapital, List.count_cons_self, List.cons_append, List.singleton_append,
          dottedPairs, dottedPairs_cons_dot, if_pos ⟨rfl, rfl⟩, hpairs, Nat.add_comm]
      · obtain ⟨d, hd, hletter, -⟩ := @exists_lowerAt_eq c before s hc
        rw [hd, List.count_cons_of_ne hc, ← hpairs, List.singleton_append]
        cases s with
        | nil => simp [lowerAfter, dottedPairs]
        | cons e s =>
            -- The next character is no combining dot, if this one becomes an `i`.
            have hnext : ∃ x xs, lowerAfter (c :: before) (e :: s) = x :: xs ∧
                (x = '\u0307' → e = '\u0307') := by
              by_cases he : e = 'İ'
              · subst he
                exact ⟨'i', _, rfl, by decide⟩
              · obtain ⟨x, hx, -, hdot⟩ := @exists_lowerAt_eq e (c :: before) s he
                exact ⟨x, _, by rw [lowerAfter_cons, hx]; rfl, hdot⟩
            obtain ⟨x, xs, hx, hdot⟩ := hnext
            have hapart : ¬(d = 'i' ∧ x = '\u0307') := by
              rintro ⟨hi, hmark⟩
              simp only [dotted, hdot hmark, Bool.or_eq_false_iff, Bool.and_eq_false_iff,
                beq_eq_false_iff_ne] at hs
              rcases hletter hi with rfl | rfl <;> simp at hs
            rw [hx, dottedPairs, if_neg hapart, Nat.zero_add]

/-- A text without such a pair is the shortest one of its form. -/
theorem length_le_of_lower_eq (ht : dotted t = false) (h : lower s = lower t) :
    t.length ≤ s.length := by
  have hcount : s.count 'İ' ≤ t.count 'İ' := by
    have hpairs := count_le_dottedPairs [] s
    rwa [← lower, h, lower, dottedPairs_lowerAfter [] ht] at hpairs
  have hlength := congrArg List.length h
  rw [lower, lower, length_lowerAfter, length_lowerAfter] at hlength
  omega

/-! ## A shorter text of the same form -/

theorem borderedByCased_cons (c : Char) (s : List Char) : borderedByCased (c :: s) =
    if isCaseIgnorable c then borderedByCased s else isCased c := by
  cases hignored : isCaseIgnorable c with
  | false => rw [borderedByCased, List.dropWhile_cons_of_neg (by simp [hignored])]; rfl
  | true => rw [borderedByCased, List.dropWhile_cons_of_pos hignored]; rfl

/-- Of what stands before a text only the nearest letter matters. -/
theorem lowerAfter_congr {before other : List Char}
    (h : borderedByCased before = borderedByCased other) (s : List Char) :
    lowerAfter before s = lowerAfter other s := by
  induction s generalizing before other with
  | nil => rfl
  | cons c s ih =>
      have hnext : borderedByCased (c :: before) = borderedByCased (c :: other) := by
        rw [borderedByCased_cons, borderedByCased_cons, h]
      rw [lowerAfter_cons, lowerAfter_cons, ih hnext, lowerAt, lowerAt, h]

/-- Texts of the same form may stand for each other at the end of a text, if neither or both
begin with a letter. -/
theorem lowerAfter_append (hcased : borderedByCased s = borderedByCased t)
    (h : ∀ before, lowerAfter before s = lowerAfter before t) (pre before : List Char) :
    lowerAfter before (pre ++ s) = lowerAfter before (pre ++ t) := by
  induction pre generalizing before with
  | nil => exact h before
  | cons c pre ih =>
      have hborder : borderedByCased (pre ++ s) = borderedByCased (pre ++ t) := by
        clear ih
        induction pre with
        | nil => exact hcased
        | cons d pre ih =>
            rw [List.cons_append, List.cons_append, borderedByCased_cons, borderedByCased_cons, ih]
      rw [List.cons_append, List.cons_append, lowerAfter_cons, lowerAfter_cons, ih, lowerAt,
        lowerAt, hborder]

/-- Whether a pair is in a text. -/
theorem exists_pair (hs : dotted s = true) :
    ∃ pre c post, s = pre ++ c :: '\u0307' :: post ∧ (c = 'i' ∨ c = 'I') := by
  induction s with
  | nil => cases hs
  | cons c s ih =>
      cases s with
      | nil => cases hs
      | cons d s =>
          rw [dotted, Bool.or_eq_true, Bool.and_eq_true, Bool.or_eq_true, beq_iff_eq, beq_iff_eq,
            beq_iff_eq] at hs
          rcases hs with ⟨hletter, rfl⟩ | hrest
          · exact ⟨[], c, s, rfl, hletter⟩
          · obtain ⟨pre, e, post, hsplit, hletter⟩ := ih hrest
            exact ⟨c :: pre, e, post, by rw [hsplit]; rfl, hletter⟩

/-- A text with a pair has a shorter one of the same form, in which `İ` stands for the pair. -/
theorem exists_shorter (hs : dotted s = true) :
    ∃ t, lower t = lower s ∧ t.length + 1 = s.length := by
  obtain ⟨pre, c, post, rfl, hletter⟩ := exists_pair hs
  have hmark : isCaseIgnorable '\u0307' = true := by decide
  have hdotCapital : isCaseIgnorable 'İ' = false ∧ isCased 'İ' = true := by decide
  have hplain :
      isCaseIgnorable c = false ∧ isCased c = true ∧ c.toNat < 0x80 ∧ c.toLower = 'i' := by
    rcases hletter with rfl | rfl <;> decide
  refine ⟨pre ++ 'İ' :: post, lowerAfter_append ?_ (fun before => ?_) pre [],
    by simp [Nat.add_assoc]⟩
  · simp [borderedByCased_cons, hdotCapital, hplain]
  · have hcontext :
        borderedByCased ('İ' :: before) = borderedByCased ('\u0307' :: c :: before) := by
      simp [borderedByCased_cons, hdotCapital, hplain, hmark]
    have hpair : lowerAt before c ('\u0307' :: post) = ['i'] := by
      rw [lowerAt, if_pos hplain.2.2.1, hplain.2.2.2]
    have hdot : lowerAt (c :: before) '\u0307' post = ['\u0307'] := rfl
    rw [lowerAfter_cons, lowerAfter_cons, lowerAfter_cons, lowerAt_dotCapital, hpair, hdot,
      lowerAfter_congr hcontext]
    rfl

end Text

namespace Terminal

/-- A literal in any case takes no more than there is, unless an `i` stands right before a
combining dot in it. -/
theorem bounded_literal_iff {cs : List Char} :
    (literal cs true).Bounded ↔ Text.dotted cs = false := by
  constructor
  · intro hbounded
    cases hdotted : Text.dotted cs with
    | false => rfl
    | true =>
        obtain ⟨t, hlower, hlength⟩ := Text.exists_shorter hdotted
        have heq := hbounded t (by omega) hlower
        omega
  · intro hplain s hle hlower
    exact Nat.le_antisymm hle (Text.length_le_of_lower_eq hplain hlower)

end Terminal

end CartLua
