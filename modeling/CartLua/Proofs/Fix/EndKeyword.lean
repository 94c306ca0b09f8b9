import CartLua.Proofs.Fix.Overlooking
import CartLua.Proofs.Lexical.Names

/-!
# A keyword at the end of a text

The keyword `end` may be put behind a text on a line of its own or on the same line.  Most patterns
make the same of both: either they end before the keyword, or what sets the keyword off is a blank
to them in both cases.  Where two dashes stand in the last line, the keyword on that line is part
of a comment; such texts are left out.

What is left of the two texts is either the same, or again a text with the keyword behind it.
-/

namespace CartLua

open Dialect Terminal

/-- A text with the keyword `end` behind it, set off by a character. -/
def endedBy (c : Char) (u : List Char) : List Char := u ++ c :: "end".toList

/-- Whether no comment that ends with the line may stand at the end of a text: two dashes in its
last line, also those in a string, are followed by a long bracket. -/
def Uncommented (u : List Char) : Prop :=
  ∀ line, '-' :: '-' :: line <:+ u → '\n' ∉ line → ∃ level, openingBracket level <+: line

/-- Two texts that are the same, or that only differ in how the keyword at their end is set off.
In the second case the text before the keyword has a property. -/
inductive Tailed (P : List Char → Prop) : List Char → List Char → Prop
  | same (s : List Char) : Tailed P s s
  | ended {u : List Char} (uncommented : Uncommented u) (holds : P u) :
      Tailed P (endedBy '\n' u) (endedBy ' ' u)

/-- Any text. -/
abbrev Anything (_ : List Char) : Prop := True

variable {g : Grammar} {P P' : List Char → Prop} {Q : List Char → List Char → Prop}
  {c : Char} {s t u v cs : List Char}

theorem endedBy_cons (c d : Char) (u : List Char) : endedBy c (d :: u) = d :: endedBy c u := rfl

theorem endedBy_append (c : Char) (u v : List Char) : endedBy c (u ++ v) = u ++ endedBy c v :=
  List.append_assoc u v _

theorem prefix_endedBy_iff (hc : c ∉ cs) : cs <+: endedBy c u ↔ cs <+: u :=
  prefix_append_cons_iff hc

/-- What ends with a character that the rest of a text does not have lies before that rest. -/
theorem prefix_of_append_eq {w rest tail : List Char} (hc : c ∉ tail)
    (h : w ++ [c] ++ rest = u ++ tail) : w ++ [c] <+: u := by
  rcases List.append_eq_append_iff.mp h with ⟨v, rfl, -⟩ | ⟨v, hv, rfl⟩
  · exact List.prefix_append _ v
  · rcases List.eq_nil_or_concat v with rfl | ⟨v, d, rfl⟩
    · rw [List.append_nil] at hv
      exact hv ▸ List.prefix_refl _
    · rw [List.concat_eq_append, ← List.append_assoc] at hv
      have hlast : c = d := by simpa using congrArg List.getLast? hv
      simp [hlast] at hc

theorem Uncommented.of_append (h : Uncommented (u ++ v)) : Uncommented v :=
  fun line hline => h line (hline.trans (List.suffix_append u v))

/-- A text without two dashes in a row has no comment. -/
theorem uncommented_of_not_infix (h : ¬"--".toList <:+: u) : Uncommented u := by
  intro line hline
  have hdashes : "--".toList <:+: '-' :: '-' :: line := (List.prefix_append _ line).isInfix
  exact absurd (hdashes.trans hline.isInfix) h

theorem Tailed.mono (h : Tailed P s t) (hP : ∀ u, P u → P' u) : Tailed P' s t := by
  cases h with
  | same s => exact .same s
  | ended hu hholds => exact .ended hu (hP _ hholds)

theorem Tailed.anything (h : Tailed P s t) : Tailed Anything s t := h.mono fun _ _ => trivial

/-- To overlook how the keyword is set off, it is enough to do so where there is a difference. -/
theorem Overlooks.of_ended {n : Nat} {p : Pattern} (hQ : ∀ s, Q s s)
    (h : ∀ u, Uncommented u → P u → ∀ x, DerivesIn g n p (endedBy '\n' u) x → x ≠ .broken →
      ∃ y, DerivesIn g n p (endedBy ' ' u) y ∧ x.Alike Q y) : Overlooks g (Tailed P) Q n p := by
  intro s t hst x hx hunbroken
  cases hst with
  | same s => exact ⟨x, hx, .refl hQ hunbroken⟩
  | @ended u hu hholds => exact h u hu hholds x hx hunbroken

/-! ## Terminals -/

namespace Terminal

/-- The characters that set the keyword off. -/
def breaks : List Char := ['\n', ' ']

theorem mem_breaks : c ∈ breaks ↔ c = '\n' ∨ c = ' ' := by simp [breaks]

/-- Whether a terminal fails before the keyword, or takes the same text before it. -/
def EndsWithin (t : Terminal) (u : List Char) : Prop :=
  (∃ taken v, u = taken ++ v ∧
      ∀ c ∈ breaks, t.answer (endedBy c u) = .matched [.chars taken] (endedBy c v)) ∨
    ∀ c ∈ breaks, t.answer (endedBy c u) = .failed

/-- Whether a terminal makes no difference between a line feed and a blank. -/
def overlooksBreak : Terminal → Bool
  | literal cs false => cs.all fun c => !breaks.contains c
  | literal cs true => cs == "0x".toList
  | oneOf chars _ => chars.contains '\n' == chars.contains ' '
  | endOfLine _ => false
  | _ => true

theorem EndsWithin.alike {t : Terminal} (h : t.EndsWithin u) (hu : Uncommented u) :
    (t.answer (endedBy '\n' u)).Alike (Tailed Anything) (t.answer (endedBy ' ' u)) := by
  rcases h with ⟨taken, v, rfl, h⟩ | h
  · rw [h '\n' (by decide), h ' ' (by decide)]
    exact .matched (.ended hu.of_append trivial)
  · rw [h '\n' (by decide), h ' ' (by decide)]
    exact .failed

theorem endsWithin_literal (hcs : ∀ c ∈ breaks, c ∉ cs) : (literal cs false).EndsWithin u := by
  by_cases hprefix : cs <+: u
  · obtain ⟨v, rfl⟩ := hprefix
    refine .inl ⟨cs, v, rfl, fun c _ => ?_⟩
    rw [endedBy_append, answer_literal]
  · exact .inr fun c hc => answer_literal_eq_failed (mt (prefix_endedBy_iff (hcs c hc)).mp hprefix)

/-- A literal without some character of a text does not reach the end of the text. -/
theorem endsWithin_literal_of_mem (hmem : c ∈ u) (hcs : c ∉ cs) :
    (literal cs false).EndsWithin u := by
  have hwithin : ∀ {d}, cs <+: endedBy d u → cs <+: u := by
    intro d hprefix
    have hu : u <+: endedBy d u := List.prefix_append _ _
    rcases Nat.le_total cs.length u.length with hle | hle
    · exact List.prefix_of_prefix_length_le hprefix hu hle
    · exact absurd ((List.prefix_of_prefix_length_le hu hprefix hle).subset hmem) hcs
  by_cases hprefix : cs <+: u
  · obtain ⟨v, rfl⟩ := hprefix
    refine .inl ⟨cs, v, rfl, fun d _ => ?_⟩
    rw [endedBy_append, answer_literal]
  · exact .inr fun d _ => answer_literal_eq_failed (mt hwithin hprefix)

theorem answer_anyCase (cs s : List Char) : (literal cs true).answer s =
    if Text.lower (s.take cs.length) = Text.lower cs then
      .matched [.chars (s.take cs.length)] (s.drop cs.length)
    else .failed := by
  by_cases h : Text.lower (s.take cs.length) = Text.lower cs <;> simp [answer, scan, h]

/-- The mark of a hexadecimal numeral is not read across the end of a text. -/
theorem lower_ne_hexMark (hc : c ∈ breaks) (hu : u.length < 2) :
    Text.lower ((endedBy c u).take 2) ≠ ['0', 'x'] := by
  rcases u with _ | ⟨d, _ | ⟨e, u⟩⟩
  · rcases mem_breaks.mp hc with rfl | rfl <;> decide
  · -- The second character is the break, which stays as it is.
    have hlast : Text.CaseMap.lowerAfter [d] [c] = [c] := by
      rcases mem_breaks.mp hc with rfl | rfl <;> rfl
    intro h
    have hsplit : Text.lower ((endedBy c [d]).take 2) = _ ++ Text.CaseMap.lowerAfter [d] [c] := rfl
    rw [hsplit, hlast] at h
    have hx := congrArg List.getLast? h
    rw [List.getLast?_concat] at hx
    cases hx
    exact absurd hc (by decide)
  · simp only [List.length_cons] at hu
    omega

theorem endsWithin_hexMark : (literal "0x".toList true).EndsWithin u := by
  have hlower : Text.lower "0x".toList = ['0', 'x'] := by decide
  rcases Nat.lt_or_ge u.length 2 with hlt | hle
  · refine .inr fun c hc => ?_
    rw [answer_anyCase, hlower]
    exact if_neg (lower_ne_hexMark hc hlt)
  · have hanswer : ∀ c, (literal "0x".toList true).answer (endedBy c u) =
        if Text.lower (u.take 2) = ['0', 'x'] then
          .matched [.chars (u.take 2)] (endedBy c (u.drop 2))
        else .failed := by
      intro c
      have htake : (endedBy c u).take "0x".toList.length = u.take 2 :=
        List.take_append_of_le_length hle
      have hdrop : (endedBy c u).drop "0x".toList.length = endedBy c (u.drop 2) :=
        List.drop_append_of_le_length hle
      rw [answer_anyCase, hlower, htake, hdrop]
    by_cases h : Text.lower (u.take 2) = ['0', 'x']
    · refine .inl ⟨u.take 2, u.drop 2, (List.take_append_drop 2 u).symm, fun c _ => ?_⟩
      rw [hanswer, if_pos h]
    · refine .inr fun c _ => ?_
      rw [hanswer, if_neg h]

theorem endsWithin_oneOf {chars : List Char} {negated : Bool} (hu : u ≠ []) :
    (oneOf chars negated).EndsWithin u := by
  cases u with
  | nil => exact absurd rfl hu
  | cons d v =>
      by_cases h : (chars.contains d != negated) = true
      · refine .inl ⟨[d], v, rfl, fun c _ => ?_⟩
        rw [endedBy_cons, answer_oneOf_cons, if_pos h]
      · refine .inr fun c _ => ?_
        rw [endedBy_cons, answer_oneOf_cons, if_neg h]

/-- Behind a text a set of characters takes the break or not, whichever it is. -/
theorem alike_oneOf {chars : List Char} {negated : Bool}
    (h : chars.contains '\n' = chars.contains ' ') (hu : Uncommented u) :
    ((oneOf chars negated).answer (endedBy '\n' u)).Alike (Tailed Anything)
      ((oneOf chars negated).answer (endedBy ' ' u)) := by
  by_cases hnil : u = []
  · subst hnil
    have hbreak : ∀ c, endedBy c [] = c :: "end".toList := fun _ => rfl
    rw [hbreak, hbreak, answer_oneOf_cons, answer_oneOf_cons, h]
    split
    · exact .matched (.same _)
    · exact .failed
  · exact (endsWithin_oneOf hnil).alike hu

theorem endsWithin_identifier : identifier.EndsWithin u := by
  cases u with
  | nil =>
      refine .inr fun c hc => ?_
      have hfirst : isIdentifierFirst c = false := by
        rcases mem_breaks.mp hc with rfl | rfl <;> decide
      exact (answer_identifier_cons c _).trans (if_neg (by simp [hfirst]))
  | cons d v =>
      have hparts : v.takeWhile isIdentifierPart ++ v.dropWhile isIdentifierPart = v :=
        List.takeWhile_append_dropWhile
      have hpart : ∀ c ∈ breaks, isIdentifierPart c ≠ true := by
        intro c hc
        rcases mem_breaks.mp hc with rfl | rfl <;> decide
      -- A run of such characters ends before the break.
      have htaken : ∀ c ∈ breaks, (endedBy c v).takeWhile isIdentifierPart =
          v.takeWhile isIdentifierPart := by
        intro c hc
        rw [endedBy, List.takeWhile_append]
        split
        · rename_i hall
          rw [List.takeWhile_cons_of_neg (hpart c hc), List.append_nil]
          exact ((List.takeWhile_prefix _).eq_of_length hall).symm
        · rfl
      have hleft : ∀ c ∈ breaks, (endedBy c v).dropWhile isIdentifierPart =
          endedBy c (v.dropWhile isIdentifierPart) := by
        intro c hc
        have h := @List.takeWhile_append_dropWhile _ isIdentifierPart (endedBy c v)
        have hsplit : endedBy c v = v.takeWhile isIdentifierPart ++
            endedBy c (v.dropWhile isIdentifierPart) := by rw [← endedBy_append, hparts]
        rw [htaken c hc] at h
        exact List.append_cancel_left (h.trans hsplit)
      by_cases hd : isIdentifierFirst d = true
      · refine .inl ⟨d :: v.takeWhile isIdentifierPart, v.dropWhile isIdentifierPart, ?_, ?_⟩
        · rw [List.cons_append, hparts]
        · intro c hc
          rw [endedBy_cons, answer_identifier_cons, if_pos hd, htaken c hc, hleft c hc]
      · refine .inr fun c _ => ?_
        rw [endedBy_cons, answer_identifier_cons, if_neg hd]

theorem endsWithin_endOfInput : endOfInput.EndsWithin u := by
  refine .inr fun c _ => ?_
  simp [answer, scan, endedBy]

/-- A long bracket that is closed at all is closed before the keyword. -/
theorem endsWithin_longBracket (h : longBracket.answer (endedBy '\n' u) ≠ .broken) :
    longBracket.EndsWithin u := by
  rcases answer_longBracket_cases (endedBy '\n' u) with
    ⟨level, body, rest, hcloses, hsplit, -⟩ | ⟨level, t, -, -, hbroken⟩ | ⟨hunopened, -⟩
  · obtain ⟨v, rfl⟩ : openingBracket level ++ (body ++ closingBracket level) <+: u := by
      -- The bracket ends with a character that the keyword does not have.
      obtain ⟨w, hw⟩ : ∃ w, openingBracket level ++ (body ++ closingBracket level) = w ++ [']'] :=
        ⟨openingBracket level ++ (body ++ ']' :: List.replicate level '='),
          by simp [closingBracket]⟩
      have htext : w ++ [']'] ++ rest = u ++ '\n' :: "end".toList := by
        rw [← hw, List.append_assoc]
        exact hsplit.symm
      rw [hw]
      exact prefix_of_append_eq (by decide) htext
    refine .inl ⟨_, v, rfl, fun c _ => ?_⟩
    rw [endedBy_append, List.append_assoc, answer_longBracket hcloses]
  · exact absurd hbroken h
  · refine .inr fun c hc => ?_
    have hopening : ∀ level, ∀ c ∈ breaks, c ∉ openingBracket level := by
      intro level c hc
      rcases mem_breaks.mp hc with rfl | rfl <;> simp [openingBracket]
    have hnone : ∀ level, ¬openingBracket level <+: endedBy c u := by
      intro level hopens
      apply hunopened level
      rw [prefix_endedBy_iff (hopening level _ hc)] at hopens
      rwa [prefix_endedBy_iff (hopening level _ (by decide))]
    rw [answer, scan_longBracket_eq_miss hnone]

/-- A terminal that makes no difference between the breaks makes none between the texts. -/
theorem alike_of_overlooksBreak {t : Terminal} (ht : t.overlooksBreak = true) (hu : Uncommented u)
    (h : t.answer (endedBy '\n' u) ≠ .broken) :
    (t.answer (endedBy '\n' u)).Alike (Tailed Anything) (t.answer (endedBy ' ' u)) := by
  cases t with
  | literal cs anyCase =>
      cases anyCase with
      | false =>
          have hcs : ∀ c ∈ breaks, c ∉ cs := by
            intro c hc hmem
            have hnot := List.all_eq_true.mp ht c hmem
            simp [hc] at hnot
          exact (endsWithin_literal hcs).alike hu
      | true =>
          obtain rfl : cs = "0x".toList := beq_iff_eq.mp ht
          exact endsWithin_hexMark.alike hu
  | oneOf chars negated => exact alike_oneOf (beq_iff_eq.mp ht) hu
  | identifier => exact endsWithin_identifier.alike hu
  | endOfInput => exact endsWithin_endOfInput.alike hu
  | endOfLine orEnd => cases ht
  | longBracket => exact (endsWithin_longBracket h).alike hu

end Terminal

namespace Overlooks

variable {n : Nat}

theorem terminal {t : Terminal} (ht : t.overlooksBreak = true) :
    Overlooks g (Tailed Anything) (Tailed Anything) n (.terminal t) := by
  apply of_ended .same
  intro u hu _ x hx hunbroken
  cases hx with
  | terminal => exact ⟨_, .terminal t _, alike_of_overlooksBreak ht hu hunbroken⟩

theorem of_endsWithin {t : Terminal} (ht : ∀ u, P u → t.EndsWithin u) :
    Overlooks g (Tailed P) (Tailed Anything) n (.terminal t) := by
  apply of_ended .same
  intro u hu hholds x hx _
  cases hx with
  | terminal => exact ⟨_, .terminal t _, (ht u hholds).alike hu⟩

/-- Where there is a character before the keyword, a set of characters may take it. -/
theorem oneOf {chars : List Char} (hne : ∀ u, P u → u ≠ [])
    (hP : ∀ c ∈ chars, ∀ v, P (c :: v) → P' v) :
    Overlooks g (Tailed P) (Tailed P') n (.terminal (.oneOf chars false)) := by
  apply of_ended .same
  intro u hu hholds x hx _
  cases hx with
  | terminal =>
      refine ⟨_, .terminal _ _, ?_⟩
      cases u with
      | nil => exact absurd rfl (hne [] hholds)
      | cons c v =>
          rw [endedBy_cons, endedBy_cons, answer_oneOf_cons, answer_oneOf_cons]
          split
          · rename_i hc
            have hmem : c ∈ chars := by simpa using hc
            exact .matched (.ended (hu.of_append (u := [c])) (hP c hmem v hholds))
          · exact .failed

end Overlooks

end CartLua
