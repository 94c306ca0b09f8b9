import CartLua.Grammar.Combinators
import CartLua.Proofs.Derivation.Basic

/-!
# What patterns take

Failures decide what is tried next: an alternative is tried once those before it have failed,
and a loop ends where its body fails.  So it is said of each form of a pattern both which
texts it takes and where it fails.
-/

namespace CartLua

/-- Whether a pattern matches the text before `rest`. -/
def Takes (g : Grammar) (p : Pattern) (s rest : List Char) : Prop :=
  ∃ parts, Derives g p s (.matched parts rest)

/-- Whether a text does not begin with one of some characters. -/
def StartsOutside (chars s : List Char) : Prop := ∀ c ∈ s.head?, c ∉ chars

@[simp]
theorem startsOutside_nil {chars : List Char} : StartsOutside chars [] := nofun

@[simp]
theorem startsOutside_cons {chars s : List Char} {c : Char} :
    StartsOutside chars (c :: s) ↔ c ∉ chars := by
  simp [StartsOutside]

instance (chars : List Char) : (s : List Char) → Decidable (StartsOutside chars s)
  | [] => isTrue startsOutside_nil
  | _ :: _ => decidable_of_iff _ startsOutside_cons.symm

theorem startsOutside_singleton {c : Char} {s : List Char} :
    StartsOutside [c] s ↔ ¬[c] <+: s := by
  cases s with
  | nil => simp
  | cons d s => simp [eq_comm]

variable {g : Grammar} {p stop : Pattern} {items : List Pattern} {c d : Char}
  {chars s t rest : List Char} {parts : List Tree}

/-! ## Terminals -/

theorem Terminal.answer_oneOf {chars s : List Char} {c : Char} {negated : Bool}
    (hc : (chars.contains c != negated) = true) :
    (Terminal.oneOf chars negated).answer (c :: s) = .matched [.chars [c]] s := by
  have hscan : (Terminal.oneOf chars negated).scan (c :: s).toArray 0 = .take 1 := if_pos hc
  rw [answer, hscan]
  rfl

theorem Terminal.answer_oneOf_cons (chars s : List Char) (negated : Bool) (c : Char) :
    (Terminal.oneOf chars negated).answer (c :: s) =
      if chars.contains c != negated then .matched [.chars [c]] s else .failed := by
  by_cases h : (chars.contains c != negated) = true
  · rw [if_pos h, answer_oneOf h]
  · have hscan : (Terminal.oneOf chars negated).scan (c :: s).toArray 0 = .miss := if_neg h
    rw [if_neg h, answer, hscan]

theorem Terminal.answer_literal (cs s : List Char) :
    (Terminal.literal cs false).answer (cs ++ s) = .matched [.chars cs] s := by
  have hstarts : Text.startsAt (cs ++ s).toArray cs 0 = true :=
    Text.startsAt_iff.mpr ⟨Nat.zero_le _, by simp⟩
  simp [answer, scan, hstarts]

theorem Terminal.answer_literal_eq_failed {cs s : List Char} (h : ¬cs <+: s) :
    (Terminal.literal cs false).answer s = .failed := by
  have hstarts : Text.startsAt s.toArray cs 0 ≠ true := by simpa [Text.startsAt_iff] using h
  simp [answer, scan, hstarts]

theorem Derives.of_answer {t : Terminal} {a : Answer} (h : t.answer s = a) :
    Derives g (.terminal t) s a :=
  h ▸ .terminal t s

theorem takes_oneOf : Takes g (.terminal (.oneOf chars false)) s rest ↔
    ∃ c ∈ chars, s = c :: rest := by
  constructor
  · rintro ⟨parts, h⟩
    obtain ⟨c, hc, -, hs⟩ := Match.of_oneOf h.toMatch
    exact ⟨c, by simpa using hc, hs⟩
  · rintro ⟨c, hc, rfl⟩
    exact ⟨_, .of_answer (Terminal.answer_oneOf (by simpa using hc))⟩

theorem failed_oneOf_iff :
    Derives g (.terminal (.oneOf chars false)) s .failed ↔ StartsOutside chars s := by
  cases s with
  | nil => exact iff_of_true (.terminal (.oneOf chars false) []) startsOutside_nil
  | cons c s =>
      rw [startsOutside_cons]
      constructor
      · intro h hc
        have hanswer : Derives g (.terminal (.oneOf chars false)) (c :: s) _ :=
          .of_answer (Terminal.answer_oneOf (by simpa using hc))
        cases h.deterministic hanswer
      · intro hc
        exact .of_answer ((Terminal.answer_oneOf_cons chars s false c).trans (by simp [hc]))

theorem takes_literal {cs : List Char} :
    Takes g (.terminal (.literal cs false)) s rest ↔ s = cs ++ rest := by
  constructor
  · rintro ⟨parts, h⟩
    exact (Match.of_literal h.toMatch).2
  · rintro rfl
    exact ⟨_, .of_answer (Terminal.answer_literal cs rest)⟩

theorem failed_literal_iff {cs : List Char} :
    Derives g (.terminal (.literal cs false)) s .failed ↔ ¬cs <+: s := by
  refine ⟨?_, fun hnone => .of_answer (Terminal.answer_literal_eq_failed hnone)⟩
  rintro h ⟨rest, rfl⟩
  have hanswer : Derives g (.terminal (.literal cs false)) (cs ++ rest) _ :=
    .of_answer (Terminal.answer_literal cs rest)
  cases h.deterministic hanswer

/-- No text is taken where another character than its first one stands. -/
theorem Derives.failed_literal (h : d ≠ c) :
    Derives g (.terminal (.literal (d :: chars) false)) (c :: s) .failed :=
  failed_literal_iff.mpr (by simp [h])

/-! ## Sequences and choices -/

/-- A sequence that matches has a first item that matches and others that match after it. -/
theorem Derives.of_seq_cons (h : Derives g (.seq (p :: items)) s (.matched parts rest)) :
    ∃ first middle others, Derives g p s (.matched first middle) ∧
      Derives g (.seq items) middle (.matched others rest) ∧ parts = first ++ others := by
  generalize ha : Answer.matched parts rest = a at h
  cases h with
  | @seqCons _ _ _ _ _ a first others =>
      cases a <;> cases ha
      exact ⟨_, _, _, first, others, rfl⟩
  | seqStop _ stops =>
      subst ha
      exact absurd trivial stops

/-- A sequence that fails has a first item that fails, or others that fail after it. -/
theorem Derives.of_failed_seq (h : Derives g (.seq (p :: items)) s .failed) :
    Derives g p s .failed ∨ ∃ first middle, Derives g p s (.matched first middle) ∧
      Derives g (.seq items) middle .failed := by
  generalize ha : Answer.failed = a at h
  cases h with
  | @seqCons _ _ _ _ _ a first others =>
      cases a <;> cases ha
      exact .inr ⟨_, _, first, others⟩
  | seqStop first _ => exact .inl (ha ▸ first)

theorem takes_seq_nil : Takes g (.seq []) s rest ↔ rest = s := by
  constructor
  · rintro ⟨parts, h⟩
    exact (Match.seq_nil_iff.mp h.toMatch).2
  · rintro rfl
    exact ⟨[], .seqNil rest⟩

theorem takes_seq_cons : Takes g (.seq (p :: items)) s rest ↔
    ∃ middle, Takes g p s middle ∧ Takes g (.seq items) middle rest := by
  constructor
  · rintro ⟨parts, h⟩
    obtain ⟨first, middle, others, hfirst, hothers, -⟩ := h.of_seq_cons
    exact ⟨middle, ⟨first, hfirst⟩, others, hothers⟩
  · rintro ⟨middle, ⟨first, hfirst⟩, others, hothers⟩
    exact ⟨_, .seqCons hfirst hothers⟩

/-- Of a choice that matches, an item does. -/
theorem Derives.of_choice (h : Derives g (.choice items) s (.matched parts rest)) :
    ∃ item ∈ items, Derives g item s (.matched parts rest) := by
  induction items with
  | nil => nomatch h
  | cons item items ih =>
      cases h with
      | choiceHere first _ => exact ⟨item, List.mem_cons_self, first⟩
      | choiceNext _ others =>
          obtain ⟨other, hother, hmatch⟩ := ih others
          exact ⟨other, List.mem_cons_of_mem item hother, hmatch⟩

theorem takes_choice_nil : ¬Takes g (.choice []) s rest :=
  fun ⟨_, h⟩ => nomatch h

theorem takes_choice_cons : Takes g (.choice (p :: items)) s rest ↔
    Takes g p s rest ∨ Derives g p s .failed ∧ Takes g (.choice items) s rest := by
  constructor
  · rintro ⟨parts, h⟩
    cases h with
    | choiceHere first _ => exact .inl ⟨parts, first⟩
    | choiceNext first others => exact .inr ⟨first, parts, others⟩
  · rintro (⟨parts, h⟩ | ⟨hfailed, parts, h⟩)
    · exact ⟨parts, .choiceHere h (by simp)⟩
    · exact ⟨parts, .choiceNext hfailed h⟩

theorem failed_choice_cons_iff : Derives g (.choice (p :: items)) s .failed ↔
    Derives g p s .failed ∧ Derives g (.choice items) s .failed := by
  constructor
  · intro h
    cases h with
    | choiceHere _ taken => exact absurd rfl taken
    | choiceNext first others => exact ⟨first, others⟩
  · exact fun h => .choiceNext h.1 h.2

/-- Of texts tried in turn, one is found before which none is. -/
theorem Derives.of_choice_texts {words : List String}
    (h : Derives g (.choice (words.map Pattern.text)) s (.matched parts rest)) :
    ∃ before word after, words = before ++ word :: after ∧ s = word.toList ++ rest ∧
      ∀ other ∈ before, ¬other.toList <+: s := by
  induction words with
  | nil => nomatch h
  | cons word words ih =>
      cases h with
      | choiceHere first _ =>
          obtain ⟨-, hs⟩ := Match.of_literal first.toMatch
          exact ⟨[], word, words, rfl, hs, nofun⟩
      | choiceNext first others =>
          obtain ⟨before, found, after, rfl, hs, hbefore⟩ := ih others
          refine ⟨word :: before, found, after, rfl, hs, fun other hother => ?_⟩
          rcases List.mem_cons.mp hother with rfl | hother
          · exact failed_literal_iff.mp first
          · exact hbefore other hother

/-- Of texts that all fail, none begins what is left. -/
theorem Derives.of_failed_choice_texts {words : List String}
    (h : Derives g (.choice (words.map Pattern.text)) s .failed) :
    ∀ word ∈ words, ¬word.toList <+: s := by
  induction words with
  | nil => exact nofun
  | cons word words ih =>
      cases h with
      | choiceHere _ taken => exact absurd rfl taken
      | choiceNext first others =>
          exact List.forall_mem_cons.mpr ⟨failed_literal_iff.mp first, ih others⟩

/-! ## Committed parts, lookaheads and rules -/

theorem Derives.of_must (h : Derives g (.must p) s (.matched parts rest)) :
    Derives g p s (.matched parts rest) := by
  generalize ha : Answer.matched parts rest = a at h
  cases h with
  | @must _ _ a inner =>
      cases a <;> cases ha
      exact inner

theorem takes_must : Takes g (.must p) s rest ↔ Takes g p s rest :=
  ⟨fun ⟨parts, h⟩ => ⟨parts, h.of_must⟩, fun ⟨parts, h⟩ => ⟨parts, .must h⟩⟩

/-- A committed part does not fail. -/
theorem Derives.not_failed_must : ¬Derives g (.must p) s .failed := by
  intro h
  generalize ha : Answer.failed = a at h
  cases h with
  | @must _ _ a _ => cases a <;> cases ha

theorem Derives.not_failed_seq_must : ¬Derives g (.seq (items.map .must)) s .failed := by
  induction items generalizing s with
  | nil => exact nofun
  | cons item items ih =>
      intro h
      rcases h.of_failed_seq with hitem | ⟨_, _, -, hothers⟩
      · exact not_failed_must hitem
      · exact ih hothers

/-- Once its first item has matched, a committed sequence does not fail. -/
theorem failed_ifMust_iff : Derives g (.ifMust p items) s .failed ↔ Derives g p s .failed := by
  constructor
  · intro h
    rcases h.of_failed_seq with hfirst | ⟨_, _, -, hothers⟩
    · exact hfirst
    · exact absurd hothers Derives.not_failed_seq_must
  · exact fun h => .seqStop h id

theorem takes_lookahead : Takes g (.lookahead true p) s rest ↔
    rest = s ∧ Derives g p s .failed := by
  constructor
  · rintro ⟨parts, h⟩
    generalize ha : Answer.matched parts rest = a at h
    cases h with
    | @lookahead _ _ _ a inner =>
        cases a <;> cases ha
        exact ⟨rfl, inner⟩
  · rintro ⟨rfl, h⟩
    exact ⟨[], .lookahead h⟩

/-- A rule fails where its body does. -/
theorem Derives.failed_of_failed_rule {name : String} {rule : Rule}
    (hrule : g.rule? name = some rule) (h : Derives g (.rule name) s .failed) :
    Derives g rule.body s .failed := by
  generalize ha : Answer.failed = a at h
  cases h with
  | @rule _ _ _ a found inner =>
      cases hrule.symm.trans found
      cases a <;> cases ha
      exact inner

theorem Derives.failed_of_failed_ref {site : Site} {name : String}
    (h : Derives g (.ref site name) s .failed) : Derives g (.rule name) s .failed := by
  cases h with
  | ref _ inner => exact inner

/-! ## Loops -/

/-- Once the rounds of a loop are done, there are none left. -/
theorem Derives.star_done {site : Site} (h : Derives g (.star site p) s (.matched parts rest)) :
    Derives g p rest .failed := by
  generalize hp : Pattern.star site p = q at h
  induction h using matched_induction with
  | starMore _ _ _ ihothers => exact ihothers hp
  | starStop round =>
      cases hp
      exact round
  | _ => cases hp

/-- Nothing is skipped where the stop matches. -/
theorem takes_skipTo_of_matched (h : Derives g stop s (.matched parts t)) :
    Takes g (.skipTo stop) s rest ↔ rest = t := by
  have hhere : Derives g (.skipTo stop) s (.matched parts t) := .skipHere h nofun
  constructor
  · rintro ⟨_, hskip⟩
    cases hskip.deterministic hhere
    rfl
  · rintro rfl
    exact ⟨parts, hhere⟩

/-- A character is skipped where the stop fails. -/
theorem takes_skipTo_of_failed (h : Derives g stop (c :: s) .failed) :
    Takes g (.skipTo stop) (c :: s) rest ↔ Takes g (.skipTo stop) s rest := by
  constructor
  · rintro ⟨parts, hskip⟩
    generalize ha : Answer.matched parts rest = a at hskip
    cases hskip with
    | skipHere here taken => exact absurd (here.deterministic h) taken
    | @skipPass _ _ _ a _ others =>
        cases a <;> cases ha
        exact ⟨_, others⟩
  · rintro ⟨parts, hskip⟩
    exact ⟨_, .skipPass h hskip⟩

/-- A loop over some characters takes all of them that there are. -/
theorem takes_star_oneOf {site : Site} :
    Takes g (.star site (.terminal (.oneOf chars false))) s rest ↔
      ∃ taken, (∀ c ∈ taken, c ∈ chars) ∧ StartsOutside chars rest ∧ s = taken ++ rest := by
  constructor
  · rintro ⟨parts, h⟩
    have hrest : StartsOutside chars rest := failed_oneOf_iff.mp h.star_done
    generalize hp : Pattern.star site (.terminal (.oneOf chars false)) = p at h
    induction h using Derives.matched_induction with
    | starMore round _ _ ihothers =>
        cases hp
        obtain ⟨c, hc, rfl⟩ := takes_oneOf.mp ⟨_, round⟩
        obtain ⟨taken, htaken, -, rfl⟩ := ihothers hrest rfl
        exact ⟨c :: taken, List.forall_mem_cons.mpr ⟨hc, htaken⟩, hrest, rfl⟩
    | starStop _ => exact ⟨[], nofun, hrest, rfl⟩
    | _ => cases hp
  · rintro ⟨taken, htaken, hrest, rfl⟩
    induction taken with
    | nil => exact ⟨_, .starStop (failed_oneOf_iff.mpr hrest) id⟩
    | cons c taken ih =>
        obtain ⟨hc, htaken⟩ := List.forall_mem_cons.mp htaken
        obtain ⟨parts, hround⟩ :
            Takes g (.terminal (.oneOf chars false)) (c :: (taken ++ rest)) _ :=
          takes_oneOf.mpr ⟨c, hc, rfl⟩
        obtain ⟨more, hothers⟩ := ih htaken
        exact ⟨_, .starMore hround hothers⟩

/-- A loop that must take a character takes one and then all that there are. -/
theorem takes_plus_oneOf {site : Site} :
    Takes g (.plus site (.terminal (.oneOf chars false))) s rest ↔
      ∃ taken, taken ≠ [] ∧ (∀ c ∈ taken, c ∈ chars) ∧ StartsOutside chars rest ∧
        s = taken ++ rest := by
  constructor
  · rintro ⟨parts, h⟩
    generalize ha : Answer.matched parts rest = a at h
    cases h with
    | @plusMore _ _ _ _ _ a round others =>
        cases a <;> cases ha
        obtain ⟨c, hc, rfl⟩ := takes_oneOf.mp ⟨_, round⟩
        obtain ⟨taken, htaken, hrest, rfl⟩ := takes_star_oneOf.mp ⟨_, others⟩
        exact ⟨c :: taken, List.cons_ne_nil c taken,
          List.forall_mem_cons.mpr ⟨hc, htaken⟩, hrest, rfl⟩
    | plusStop _ stops =>
        subst ha
        exact absurd trivial stops
  · rintro ⟨taken, hne, htaken, hrest, rfl⟩
    cases taken with
    | nil => exact absurd rfl hne
    | cons c taken =>
        obtain ⟨hc, htaken⟩ := List.forall_mem_cons.mp htaken
        obtain ⟨parts, hround⟩ :
            Takes g (.terminal (.oneOf chars false)) (c :: (taken ++ rest)) _ :=
          takes_oneOf.mpr ⟨c, hc, rfl⟩
        obtain ⟨more, hothers⟩ : Takes g (.star site (.terminal (.oneOf chars false)))
            (taken ++ rest) rest := takes_star_oneOf.mpr ⟨taken, htaken, hrest, rfl⟩
        exact ⟨_, .plusMore hround hothers⟩

/-- A counted loop takes all characters that there are, as far as its count goes. -/
theorem takes_atMost_oneOf {count : Nat} :
    Takes g (.atMost count (.terminal (.oneOf chars false))) s rest ↔
      ∃ taken, taken.length ≤ count ∧ (∀ c ∈ taken, c ∈ chars) ∧
        (taken.length < count → StartsOutside chars rest) ∧ s = taken ++ rest := by
  have hpred : ∀ count : Nat, ((count + 1 : Nat) : Int) - 1 = (count : Int) := by omega
  constructor
  · rintro ⟨parts, h⟩
    generalize ha : Answer.matched parts rest = a at h
    induction count generalizing s parts a with
    | zero =>
        cases h with
        | atMostZero _ _ => cases ha; exact ⟨[], Nat.le_refl _, nofun, nofun, rfl⟩
        | atMostMore left _ _ => exact absurd rfl left
        | atMostStop left _ _ => exact absurd rfl left
    | succ count ih =>
        cases h with
        | atMostZero _ done => exact absurd done (by simp)
        | @atMostMore _ _ _ _ _ a _ round others =>
            cases a <;> cases ha
            obtain ⟨c, hc, rfl⟩ := takes_oneOf.mp ⟨_, round⟩
            obtain ⟨taken, hlength, htaken, hrest, rfl⟩ := ih _ _ rfl (hpred count ▸ others)
            exact ⟨c :: taken, by simpa using hlength,
              List.forall_mem_cons.mpr ⟨hc, htaken⟩, by simpa using hrest, rfl⟩
        | @atMostStop _ _ _ a _ round stops =>
            cases a <;> cases ha
            · exact absurd trivial stops
            · exact ⟨[], Nat.zero_le _, nofun, fun _ => failed_oneOf_iff.mp round, rfl⟩
  · rintro ⟨taken, hlength, htaken, hrest, rfl⟩
    induction count generalizing taken with
    | zero =>
        cases List.length_eq_zero_iff.mp (Nat.le_zero.mp hlength)
        exact ⟨[], .atMostZero _ rfl⟩
    | succ count ih =>
        cases taken with
        | nil =>
            exact ⟨_, .atMostStop (by simp) (failed_oneOf_iff.mpr (hrest (by simp))) id⟩
        | cons c taken =>
            obtain ⟨hc, htaken⟩ := List.forall_mem_cons.mp htaken
            obtain ⟨parts, hround⟩ : Takes g (.terminal (.oneOf chars false))
                (c :: (taken ++ rest)) _ := takes_oneOf.mpr ⟨c, hc, rfl⟩
            obtain ⟨more, hothers⟩ :=
              ih taken (by simpa using hlength) htaken (by simpa using hrest)
            exact ⟨_, .atMostMore (by simp) hround (hpred count ▸ hothers)⟩

end CartLua
