import CartLua.Proofs.Lexical.QuotedLiterals
import CartLua.Proofs.Matching.FaultPlaces

/-!
# Long brackets

A long bracket is opened by a bracket of some level and ends with the first closing bracket of
that level.  What stands between them may be anything else, brackets of other levels and line
breaks with it, and what follows the closing bracket has no influence.
-/

namespace CartLua

namespace Text

variable {text : Array Char} {offset : Nat}

theorem runEndWithin_eq (p : Char → Bool) {steps : Nat} (hsteps : text.size - offset ≤ steps) :
    runEndWithin text p steps offset = offset + ((rest text offset).takeWhile p).length := by
  induction steps generalizing offset with
  | zero =>
      have hnone : rest text offset = [] := List.length_eq_zero_iff.mp (by rw [length_rest]; omega)
      rw [runEndWithin, hnone]
      rfl
  | succ steps ih =>
      rw [runEndWithin]
      cases hc : text[offset]? with
      | none =>
          have hsize := Array.getElem?_eq_none_iff.mp hc
          have hnone : rest text offset = [] :=
            List.length_eq_zero_iff.mp (by rw [length_rest]; omega)
          rw [hnone]
          rfl
      | some c =>
          obtain ⟨hlt, hat⟩ := Array.getElem?_eq_some_iff.mp hc
          have hrest : rest text offset = c :: rest text (offset + 1) := by
            rw [rest, List.drop_eq_getElem_cons (by simpa using hlt), Array.getElem_toList, hat]
            rfl
          rw [hrest]
          dsimp only
          split
          · rename_i hp
            rw [ih (by omega), List.takeWhile_cons_of_pos hp, List.length_cons]
            omega
          · rename_i hp
            rw [List.takeWhile_cons_of_neg hp]
            rfl

/-- A run takes the longest prefix whose characters have its property. -/
theorem runEnd_eq (text : Array Char) (p : Char → Bool) (offset : Nat) :
    runEnd text p offset = offset + ((rest text offset).takeWhile p).length :=
  runEndWithin_eq p (Nat.le_refl _)

/-- What is found is the first of its kind. -/
theorem not_startsAt_of_lt_findWithin {needle : List Char} {steps found k : Nat}
    (h : findWithin text needle steps offset = some found) (hle : offset ≤ k) (hlt : k < found) :
    startsAt text needle k = false := by
  induction steps generalizing offset with
  | zero =>
      rw [findWithin] at h
      split at h
      · cases h
        omega
      · cases h
  | succ steps ih =>
      rw [findWithin] at h
      split at h
      · cases h
        omega
      · rename_i hstarts
        rcases Nat.eq_or_lt_of_le hle with rfl | hlater
        · simpa using hstarts
        · exact ih h hlater

theorem startsAt_length_iff {needle before s : List Char} (hbefore : before <+: s) :
    startsAt s.toArray needle before.length = true ↔ before ++ needle <+: s := by
  obtain ⟨after, rfl⟩ := hbefore
  simp [startsAt_iff]

/-- A search from the beginning finds the first place, if there is one. -/
theorem find?_toArray_zero (needle s : List Char) :
    (∃ before, before ++ needle <+: s ∧
        (∀ shorter, shorter ++ needle <+: s → before.length ≤ shorter.length) ∧
        find? s.toArray needle 0 = some before.length) ∨
      ¬needle <:+: s ∧ find? s.toArray needle 0 = none := by
  cases hfound : find? s.toArray needle 0 with
  | none => exact .inr ⟨not_infix_of_find? hfound (Nat.zero_le _), rfl⟩
  | some found =>
      have hstarts := (find?_spec hfound).2
      have hsize : found ≤ s.length := (startsAt_iff.mp hstarts).1
      have hlength : (s.take found).length = found := List.length_take_of_le hsize
      refine .inl ⟨s.take found, ?_, fun shorter hshorter => ?_, by rw [hlength]⟩
      · rwa [← startsAt_length_iff (List.take_prefix _ _), hlength]
      · rw [hlength]
        refine Nat.le_of_not_lt fun hlt => ?_
        have hnot := not_startsAt_of_lt_findWithin hfound (Nat.zero_le _) hlt
        have hbefore : shorter <+: s := (List.prefix_append _ _).trans hshorter
        rw [(startsAt_length_iff hbefore).mpr hshorter] at hnot
        cases hnot

end Text

namespace Terminal

/-- Whether the closing bracket of a level stands right behind a body, and nowhere before. -/
def ClosesFirst (level : Nat) (body : List Char) : Prop :=
  ∀ before, before ++ closingBracket level <+: body ++ closingBracket level → before = body

variable {level other : Nat} {body s t rest : List Char}

@[simp]
theorem length_openingBracket (level : Nat) : (openingBracket level).length = level + 2 := by
  simp [openingBracket]

@[simp]
theorem length_closingBracket (level : Nat) : (closingBracket level).length = level + 2 := by
  simp [closingBracket]

theorem openingBracket_append (level : Nat) (t : List Char) :
    openingBracket level ++ t = '[' :: (List.replicate level '=' ++ '[' :: t) := by
  simp [openingBracket]

/-- An opening bracket has one level. -/
theorem level_eq (h : openingBracket level <+: s) (hother : openingBracket other <+: s) :
    level = other := by
  have hsigns : ∀ {n : Nat} {t : List Char},
      ((List.replicate n '=' ++ '[' :: t).takeWhile (· == '=')).length = n := by
    intro n t
    rw [List.takeWhile_append_of_pos (by simp), List.takeWhile_cons_of_neg (by decide)]
    simp
  obtain ⟨t, rfl⟩ := h
  obtain ⟨u, hu⟩ := hother
  rw [openingBracket_append, openingBracket_append, List.cons.injEq] at hu
  rw [← @hsigns level t, ← hu.2, hsigns]

theorem closesFirst_of_length_le
    (h : ∀ before, before ++ closingBracket level <+: body ++ closingBracket level →
      body.length ≤ before.length) : ClosesFirst level body := by
  intro before hbefore
  have hle := h before hbefore
  have hge := hbefore.length_le
  have hprefix : before <+: body ++ closingBracket level := (List.prefix_append _ _).trans hbefore
  simp only [List.length_append] at hge
  have hwithin : before <+: body :=
    List.prefix_of_prefix_length_le hprefix (List.prefix_append _ _) (by omega)
  exact hwithin.eq_of_length (by omega)

/-- A body ends where the search for its closing bracket does. -/
theorem closesFirst_iff : ClosesFirst level body ↔
    Text.find? (body ++ closingBracket level).toArray (closingBracket level) 0 =
      some body.length := by
  rcases Text.find?_toArray_zero (closingBracket level) (body ++ closingBracket level) with
    ⟨before, hbefore, hfirst, hfound⟩ | ⟨hnone, -⟩
  · rw [hfound]
    constructor
    · intro h
      rw [h before hbefore]
    · intro hlength
      rw [Option.some.injEq] at hlength
      exact closesFirst_of_length_le fun shorter hshorter => hlength ▸ hfirst shorter hshorter
  · exact absurd (List.suffix_append body _).isInfix hnone

instance (level : Nat) (body : List Char) : Decidable (ClosesFirst level body) :=
  decidable_of_iff _ closesFirst_iff.symm

/-- Behind an opening bracket the first closing one of its level is looked for. -/
theorem scan_longBracket (level : Nat) (t : List Char) :
    longBracket.scan (openingBracket level ++ t).toArray 0 =
      match Text.find? t.toArray (closingBracket level) 0 with
      | some found => .take (level + 2 + found + (level + 2))
      | none => .unclosed level := by
  have htext := openingBracket_append level t
  have hrest :
      ∀ k, Text.rest (openingBracket level ++ t).toArray k = (openingBracket level ++ t).drop k :=
    fun _ => rfl
  have hfirst : Text.startsAt (openingBracket level ++ t).toArray ['['] 0 = true := by
    simp [Text.startsAt_iff, openingBracket]
  have hrun : Text.runEnd (openingBracket level ++ t).toArray (· == '=') (0 + 1) = level + 1 := by
    rw [Text.runEnd_eq, hrest, htext, List.drop_succ_cons, List.drop_zero,
      List.takeWhile_append_of_pos (by simp), List.takeWhile_cons_of_neg (by decide)]
    simp [Nat.add_comm]
  have hsecond : Text.startsAt (openingBracket level ++ t).toArray ['['] (level + 1) = true := by
    rw [Text.startsAt_iff, htext]
    simp
  have hsearch : Text.find? (openingBracket level ++ t).toArray (closingBracket level)
      (level + 1 + 1) = (Text.find? t.toArray (closingBracket level) 0).map (level + 2 + ·) := by
    have hbehind := @Text.find?_rest (openingBracket level ++ t).toArray (level + 2) (by simp)
      (closingBracket level) 0
    rw [hrest, List.drop_left' (length_openingBracket level)] at hbehind
    exact hbehind
  rw [scan, if_pos hfirst, scanLongBracket]
  simp only [hrun, hsecond, if_true, hsearch, Nat.sub_zero, Nat.add_sub_cancel,
    length_closingBracket]
  cases Text.find? t.toArray (closingBracket level) 0 <;> rfl

/-- What is no opening bracket of any level is no long bracket. -/
theorem scan_longBracket_eq_miss (h : ∀ level, ¬openingBracket level <+: s) :
    longBracket.scan s.toArray 0 = .miss := by
  rw [scan]
  split
  · rename_i hfirst
    rw [scanLongBracket]
    dsimp only
    split
    · rename_i hsecond
      obtain ⟨t, rfl⟩ : ∃ t, s = '[' :: t := by
        obtain ⟨t, rfl⟩ := (Text.startsAt_iff.mp hfirst).2
        exact ⟨t, rfl⟩
      have hrest : Text.rest ('[' :: t).toArray (0 + 1) = t := rfl
      have hall : ∀ c ∈ t.takeWhile (· == '='), c = '=' := fun c hc =>
        beq_iff_eq.mp (List.all_eq_true.mp List.all_takeWhile c hc)
      rw [Text.runEnd_eq, hrest] at hsecond
      -- The text is a bracket, the signs of the run and what follows them.
      obtain ⟨signs, u, hsigns, rfl⟩ :
          ∃ signs u, t.takeWhile (· == '=') = List.replicate signs '=' ∧
            t = List.replicate signs '=' ++ u := by
        have hsigns := List.eq_replicate_of_mem hall
        exact ⟨_, _, hsigns, hsigns ▸ List.takeWhile_append_dropWhile.symm⟩
      rw [hsigns] at hsecond
      obtain ⟨v, rfl⟩ : ∃ v, u = '[' :: v := by
        obtain ⟨v, hv⟩ := (Text.startsAt_iff.mp hsecond).2
        exact ⟨v, by simpa [Nat.add_comm 1] using hv.symm⟩
      exact absurd ⟨v, openingBracket_append signs v⟩ (h signs)
    · rfl
  · rfl

/-- A long bracket is a match up to the first closing bracket of its level, an error without
one, and a failure without an opening bracket. -/
theorem answer_longBracket_cases (s : List Char) :
    (∃ level body rest, ClosesFirst level body ∧
        s = openingBracket level ++ (body ++ closingBracket level ++ rest) ∧
        longBracket.answer s =
          .matched [.chars (openingBracket level ++ (body ++ closingBracket level))] rest) ∨
      (∃ level t, s = openingBracket level ++ t ∧ ¬closingBracket level <:+: t ∧
        longBracket.answer s = .broken) ∨
      (∀ level, ¬openingBracket level <+: s) ∧ longBracket.answer s = .failed := by
  by_cases hopens : ∃ level, openingBracket level <+: s
  · obtain ⟨level, t, rfl⟩ := hopens
    rcases Text.find?_toArray_zero (closingBracket level) t with
      ⟨body, ⟨rest, rfl⟩, hfirst, hfound⟩ | ⟨hnone, hfound⟩
    · refine .inl ⟨level, body, rest, ?_, rfl, ?_⟩
      · exact closesFirst_of_length_le fun before hbefore =>
          hfirst before (hbefore.trans (List.prefix_append _ rest))
      · have htaken : openingBracket level ++ (body ++ closingBracket level ++ rest) =
            openingBracket level ++ (body ++ closingBracket level) ++ rest :=
          (List.append_assoc _ _ _).symm
        have hlength : level + 2 + body.length + (level + 2) =
            (openingBracket level ++ (body ++ closingBracket level)).length := by
          simp [Nat.add_assoc]
        rw [answer, scan_longBracket, hfound]
        dsimp only
        rw [hlength, htaken, List.take_left, List.drop_left]
    · refine .inr (.inl ⟨level, t, rfl, hnone, ?_⟩)
      rw [answer, scan_longBracket, hfound]
  · have hnone := not_exists.mp hopens
    refine .inr (.inr ⟨hnone, ?_⟩)
    rw [answer, scan_longBracket_eq_miss hnone]

/-- The first closing bracket is the same one whatever follows it. -/
theorem ClosesFirst.eq {after : List Char} (hs : ClosesFirst level s) (ht : ClosesFirst level t)
    (h : s ++ closingBracket level ++ rest = t ++ closingBracket level ++ after) : s = t := by
  have hprefix : s ++ closingBracket level <+: t ++ closingBracket level ++ after :=
    h ▸ List.prefix_append _ rest
  rcases Nat.le_total s.length t.length with hle | hle
  · exact ht s
      (List.prefix_of_prefix_length_le hprefix (List.prefix_append _ _) (by simpa using hle))
  · exact (hs t (List.prefix_of_prefix_length_le (List.prefix_append _ _) hprefix
      (by simpa using hle))).symm

/-- What an opening bracket, a body and its closing bracket are matched as. -/
theorem answer_longBracket (h : ClosesFirst level body) (rest : List Char) :
    longBracket.answer (openingBracket level ++ (body ++ closingBracket level ++ rest)) =
      .matched [.chars (openingBracket level ++ (body ++ closingBracket level))] rest := by
  have hopens := List.prefix_append (openingBracket level) (body ++ closingBracket level ++ rest)
  rcases answer_longBracket_cases
    (openingBracket level ++ (body ++ closingBracket level ++ rest)) with
    ⟨other, found, after, hfirst, hsplit, hanswer⟩ | ⟨other, t, hsplit, hnone, -⟩ | ⟨hnone, -⟩
  · obtain rfl := level_eq hopens ⟨_, hsplit.symm⟩
    rw [List.append_cancel_left_eq] at hsplit
    obtain rfl := h.eq hfirst hsplit
    rw [List.append_cancel_left_eq] at hsplit
    rw [hanswer, hsplit]
  · obtain rfl := level_eq hopens ⟨_, hsplit.symm⟩
    rw [List.append_cancel_left_eq] at hsplit
    exact absurd ⟨body, rest, hsplit⟩ hnone
  · exact absurd hopens (hnone level)

end Terminal

section

open Terminal

variable {g : Grammar} {s rest : List Char}

/-- What the terminal of long brackets takes. -/
theorem takes_longBracket : Takes g (.terminal .longBracket) s rest ↔
    ∃ level body, ClosesFirst level body ∧
      s = openingBracket level ++ (body ++ closingBracket level ++ rest) := by
  constructor
  · rintro ⟨parts, h⟩
    generalize ha : Answer.matched parts rest = a at h
    cases h
    rcases answer_longBracket_cases s with
      ⟨level, body, after, hfirst, hs, hanswer⟩ | ⟨_, _, -, -, hanswer⟩ | ⟨-, hanswer⟩
    · rw [hanswer] at ha
      cases ha
      exact ⟨level, body, hfirst, hs⟩
    · rw [hanswer] at ha
      cases ha
    · rw [hanswer] at ha
      cases ha
  · rintro ⟨level, body, hfirst, rfl⟩
    exact ⟨_, .of_answer (answer_longBracket hfirst rest)⟩

/-- The terminal of long brackets fails where none is opened. -/
theorem failed_longBracket_iff : Derives g (.terminal .longBracket) s .failed ↔
    ∀ level, ¬openingBracket level <+: s := by
  rcases answer_longBracket_cases s with
    ⟨level, body, after, -, rfl, hanswer⟩ | ⟨level, t, rfl, -, hanswer⟩ | ⟨hnone, hanswer⟩
  · refine iff_of_false (fun h => ?_) fun hnone => hnone level (List.prefix_append _ _)
    nomatch h.deterministic (.of_answer hanswer)
  · refine iff_of_false (fun h => ?_) fun hnone => hnone level (List.prefix_append _ _)
    nomatch h.deterministic (.of_answer hanswer)
  · exact iff_of_true (.of_answer hanswer) hnone

end

end CartLua
