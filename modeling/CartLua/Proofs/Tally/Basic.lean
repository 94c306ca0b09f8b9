import CartLua.Proofs.Dialect.Carrying
import CartLua.Proofs.Matching.Frame

/-!
# Tallies of a match

An observer that keeps a tally writes down the matches of some rules as they happen, and takes
none of them back.  When an alternative is abandoned, what it has matched stays written down.

How a pattern succeeds or fails from a state is taken apart here along the pattern: into how its
parts succeed or fail, from which states, and what the text makes of them.
-/

namespace CartLua

open Dialect

/-- The observer that writes down the matches of some rules, the last one first. -/
def Observer.tally (watched : List String) : Observer (List Capture) where
  onMatch name := if watched.contains name then some fun c seen => c :: seen else none
  onReturn _ seen := seen

/-- A text that is matched while the matches of some rules are written down. -/
structure Survey where
  dialect : Dialect
  text : Array Char
  watched : List String

namespace Matching

variable {σ : Type} {observer : Observer σ} {step : Pattern → State σ → Outcome σ}
  {origin origin' st last : State σ}

/-- Where a sequence began makes no difference to a match. -/
theorem sequence_eq_matched {items : List Pattern}
    (h : sequence observer step origin items st = ⟨.matched, last⟩) :
    sequence observer step origin' items st = ⟨.matched, last⟩ := by
  induction items generalizing st with
  | nil => exact h
  | cons item items ih =>
      rw [sequence] at h ⊢
      rcases hitem : step item st with ⟨verdict, next⟩
      rw [hitem] at h
      cases verdict with
      | matched => exact ih h
      | failed => cases h
      | stopped stop => cases h

/-- A sequence that fails returns to where it began. -/
theorem sequence_eq_failed {items : List Pattern} (origin' : State σ)
    (h : sequence observer step origin items st = ⟨.failed, last⟩) :
    ∃ next : State σ, last = next.returnTo observer origin ∧
      sequence observer step origin' items st = ⟨.failed, next.returnTo observer origin'⟩ := by
  induction items generalizing st with
  | nil => cases h
  | cons item items ih =>
      rw [sequence] at h
      simp only [sequence]
      rcases hitem : step item st with ⟨verdict, next⟩
      rw [hitem] at h
      cases verdict with
      | matched => exact ih h
      | failed =>
          cases h
          exact ⟨next, rfl, rfl⟩
      | stopped stop => cases h

/-- Of where a choice began, only the cursor makes a difference. -/
theorem choice_congr (items : List Pattern) (origin origin' : State σ)
    (hoffset : origin.offset = origin'.offset) (htoken : origin.tokenEnd = origin'.tokenEnd) :
    choice observer step origin items st = choice observer step origin' items st := by
  induction items generalizing st with
  | nil => rfl
  | cons item items ih =>
      rw [choice, choice]
      rcases step item st with ⟨verdict, next⟩
      cases verdict with
      | failed =>
          have hback : next.returnTo observer origin = next.returnTo observer origin' := by
            rw [State.returnTo, State.returnTo, hoffset, htoken]
          dsimp only
          rw [hback]
          exact ih
      | matched => rfl
      | stopped stop => rfl

/-- A choice in two parts tries the second one where the first one has failed. -/
theorem choice_append (items more : List Pattern) :
    choice observer step origin (items ++ more) st =
      match choice observer step origin items st with
      | ⟨.failed, next⟩ => choice observer step origin more next
      | outcome => outcome := by
  induction items generalizing st with
  | nil => rfl
  | cons item items ih =>
      rw [List.cons_append, choice, choice]
      rcases step item st with ⟨verdict, next⟩
      cases verdict with
      | failed => exact ih
      | matched => rfl
      | stopped stop => rfl

/-- A loop that ends does so as well if more rounds are allowed. -/
theorem repeated_eq_matched {body : State σ → Outcome σ} {rounds : Nat}
    (h : repeated observer body rounds st = ⟨.matched, last⟩) :
    repeated observer body (rounds + 1) st = ⟨.matched, last⟩ := by
  induction rounds generalizing st with
  | zero => cases h
  | succ rounds ih =>
      rw [repeated] at h ⊢
      rcases hbody : body st with ⟨verdict, next⟩
      rw [hbody] at h
      cases verdict with
      | matched => exact ih h
      | failed => exact h
      | stopped stop => cases h

/-- A loop that ends at its stop does so as well if more rounds are allowed, wherever it is said
to have begun. -/
theorem repeatedUntil_eq_matched {stop body : State σ → Outcome σ} {rounds : Nat}
    (h : repeatedUntil observer stop body origin rounds st = ⟨.matched, last⟩) :
    repeatedUntil observer stop body origin' (rounds + 1) st = ⟨.matched, last⟩ := by
  induction rounds generalizing st with
  | zero => cases h
  | succ rounds ih =>
      rw [repeatedUntil] at h ⊢
      rcases hstop : stop st with ⟨verdict, next⟩
      rw [hstop] at h
      cases verdict with
      | matched => exact h
      | failed =>
          dsimp only at h ⊢
          rcases hbody : body next with ⟨verdict, later⟩
          rw [hbody] at h
          cases verdict with
          | matched => exact ih h
          | failed => cases h
          | stopped stop => cases h
      | stopped stop => cases h

end Matching

namespace Survey

variable (v : Survey)

/-- What keeps the tally. -/
def observer : Observer (List Capture) := .tally v.watched

/-- What stays the same during the match. -/
def setting : Setting (List Capture) :=
  ⟨v.text, v.dialect.grammar.rule?, v.dialect.grammar.isLinked, v.observer⟩

/-- What is left of the text at an offset. -/
def rest (offset : Nat) : List Char := Text.rest v.text offset

/-- Whether a pattern is sound in the dialect. -/
def Sound (p : Pattern) : Prop := p.sound (recordable v.dialect).toSound.traits = true

/-- A pattern matches from one state to another one. -/
structure Succeeds (n : Nat) (p : Pattern) (st last : State (List Capture)) (parts : List Tree) :
    Prop where
  sound : v.Sound p
  inside : st.offset ≤ v.text.size
  run_eq : Matching.run v.setting n p st = ⟨.matched, last⟩
  stays : last.offset ≤ v.text.size
  derives : DerivesIn v.dialect.grammar n p (v.rest st.offset) (.matched parts (v.rest last.offset))

/-- A pattern fails at a state and leaves another one. -/
structure Fails (n : Nat) (p : Pattern) (st last : State (List Capture)) : Prop where
  sound : v.Sound p
  inside : st.offset ≤ v.text.size
  run_eq : Matching.run v.setting n p st = ⟨.failed, last⟩
  back : last.offset = st.offset
  derives : DerivesIn v.dialect.grammar n p (v.rest st.offset) .failed

variable {v} {n : Nat} {p : Pattern} {items : List Pattern} {site : Site}
  {st last next : State (List Capture)} {parts : List Tree}

theorem exists_succeeds (hp : v.Sound p) (hst : st.offset ≤ v.text.size)
    (h : Matching.run v.setting n p st = ⟨.matched, last⟩) :
    ∃ parts, v.Succeeds n p st last parts := by
  have hanswers := answers_run (recordable v.dialect).toSound v.text v.observer n hp st hst
  rw [setting] at h
  rw [h] at hanswers
  obtain ⟨hsize, parts, hparts⟩ := hanswers
  exact ⟨parts, hp, hst, h, hsize, hparts⟩

theorem fails_of_run (hp : v.Sound p) (hst : st.offset ≤ v.text.size)
    (h : Matching.run v.setting n p st = ⟨.failed, last⟩) : v.Fails n p st last := by
  have hanswers := answers_run (recordable v.dialect).toSound v.text v.observer n hp st hst
  rw [setting] at h
  rw [h] at hanswers
  exact ⟨hp, hst, h, hanswers.1, hanswers.2⟩

theorem Succeeds.parts_eq {more : List Tree} (h : v.Succeeds n p st last parts)
    (hmore : Derives v.dialect.grammar p (v.rest st.offset) (.matched more (v.rest last.offset))) :
    parts = more := by
  cases h.derives.erase.deterministic hmore
  rfl

/-- A match does not go back. -/
theorem Succeeds.offset_le (h : v.Succeeds n p st last parts) : st.offset ≤ last.offset := by
  have htext := congrArg List.length h.derives.erase.toMatch.text_eq
  rw [rest, rest, List.length_append, Text.length_rest, Text.length_rest] at htext
  have hinside := h.inside
  have hstays := h.stays
  omega

/-- A match that takes something moves on. -/
theorem Succeeds.offset_lt (h : v.Succeeds n p st last parts)
    (hp : p.nullable (recordable v.dialect).toSound.traits.nullable = false) :
    st.offset < last.offset :=
  Answers.offset_lt (recordable v.dialect).toSound hp h.inside h.stays h.derives

/-! ## Sequences -/

theorem sound_tail (h : v.Sound (.seq (p :: items))) : v.Sound p ∧ v.Sound (.seq items) := by
  simp only [Sound, Pattern.sound, Pattern.soundInOrder, Bool.and_eq_true] at h
  exact ⟨h.1.1, h.2⟩

theorem Succeeds.of_seq_nil (h : v.Succeeds (n + 1) (.seq []) st last parts) : last = st := by
  have hrun := h.run_eq
  cases hrun
  rfl

theorem Succeeds.of_seq_cons (h : v.Succeeds (n + 1) (.seq (p :: items)) st last parts) :
    ∃ middle first others, v.Succeeds n p st middle first ∧
      v.Succeeds (n + 1) (.seq items) middle last others ∧ parts = first ++ others := by
  obtain ⟨hp, hitems⟩ := sound_tail h.sound
  have hrun := h.run_eq
  rw [Matching.run, Matching.sequence] at hrun
  rcases hhere : Matching.run v.setting n p st with ⟨verdict, middle⟩
  rw [hhere] at hrun
  cases verdict with
  | matched =>
      obtain ⟨first, hfirst⟩ := exists_succeeds hp h.inside hhere
      obtain ⟨others, hothers⟩ :=
        exists_succeeds (n := n + 1) hitems hfirst.stays (Matching.sequence_eq_matched hrun)
      refine ⟨middle, first, others, hfirst, hothers, h.parts_eq ?_⟩
      exact .seqCons hfirst.derives.erase hothers.derives.erase
  | failed => cases hrun
  | stopped stop => cases hrun

theorem Fails.of_seq_cons (h : v.Fails (n + 1) (.seq (p :: items)) st last) :
    (∃ next, v.Fails n p st next ∧ last.observed = next.observed) ∨
      ∃ middle first next, v.Succeeds n p st middle first ∧
        v.Fails (n + 1) (.seq items) middle next ∧ last.observed = next.observed := by
  obtain ⟨hp, hitems⟩ := sound_tail h.sound
  have hrun := h.run_eq
  rw [Matching.run, Matching.sequence] at hrun
  rcases hhere : Matching.run v.setting n p st with ⟨verdict, middle⟩
  rw [hhere] at hrun
  cases verdict with
  | matched =>
      obtain ⟨first, hfirst⟩ := exists_succeeds hp h.inside hhere
      obtain ⟨next, rfl, hnext⟩ := Matching.sequence_eq_failed middle hrun
      exact .inr ⟨middle, first, _, hfirst,
        fails_of_run (n := n + 1) hitems hfirst.stays hnext, rfl⟩
  | failed =>
      cases hrun
      exact .inl ⟨middle, fails_of_run hp h.inside hhere, rfl⟩
  | stopped stop => cases hrun

/-! ## Choices -/

theorem sound_others (h : v.Sound (.choice (p :: items))) :
    v.Sound p ∧ v.Sound (.choice items) := by
  simpa only [Sound, Pattern.sound, Pattern.soundAll, Bool.and_eq_true] using h

theorem Succeeds.of_choice_cons (h : v.Succeeds (n + 1) (.choice (p :: items)) st last parts) :
    v.Succeeds n p st last parts ∨ ∃ next, v.Fails n p st next ∧
      v.Succeeds (n + 1) (.choice items) (next.returnTo v.setting.observer st) last parts := by
  obtain ⟨hp, hitems⟩ := sound_others h.sound
  have hrun := h.run_eq
  rw [Matching.run, Matching.choice] at hrun
  rcases hhere : Matching.run v.setting n p st with ⟨verdict, next⟩
  rw [hhere] at hrun
  cases verdict with
  | matched =>
      cases hrun
      obtain ⟨first, hfirst⟩ := exists_succeeds hp h.inside hhere
      rw [h.parts_eq (.choiceHere hfirst.derives.erase (by simp))]
      exact .inl hfirst
  | failed =>
      have hfails := fails_of_run hp h.inside hhere
      have hback : (next.returnTo v.setting.observer st).offset ≤ v.text.size := h.inside
      refine .inr ⟨next, hfails, ?_⟩
      obtain ⟨others, hothers⟩ := exists_succeeds (n := n + 1) hitems hback
        ((Matching.choice_congr items (next.returnTo v.setting.observer st) st rfl rfl).trans hrun)
      rw [h.parts_eq (.choiceNext hfails.derives.erase hothers.derives.erase)]
      exact hothers
  | stopped stop => cases hrun

theorem sound_append {more : List Pattern} (h : v.Sound (.choice (items ++ more))) :
    v.Sound (.choice items) ∧ v.Sound (.choice more) := by
  induction items with
  | nil => exact ⟨rfl, h⟩
  | cons item items ih =>
      obtain ⟨hitem, hothers⟩ := sound_others h
      obtain ⟨hitems, hmore⟩ := ih hothers
      refine ⟨?_, hmore⟩
      simp only [Sound, Pattern.sound, Pattern.soundAll, Bool.and_eq_true]
      exact ⟨hitem, hitems⟩

/-- Of a choice in two parts that matches, the first part does, or it fails and the second one
does. -/
theorem Succeeds.of_choice_append {more : List Pattern}
    (h : v.Succeeds (n + 1) (.choice (items ++ more)) st last parts) :
    v.Succeeds (n + 1) (.choice items) st last parts ∨ ∃ next,
      v.Fails (n + 1) (.choice items) st next ∧
        v.Succeeds (n + 1) (.choice more) next last parts := by
  obtain ⟨hitems, hmore⟩ := sound_append h.sound
  have hframes := Matching.framing_run v.setting (n + 1) (.choice items) st
  have hrun := h.run_eq
  rw [Matching.run, Matching.choice_append] at hrun
  rcases hhere : Matching.run v.setting (n + 1) (.choice items) st with ⟨verdict, next⟩
  rw [hhere] at hframes
  rw [Matching.run] at hhere
  rw [hhere] at hrun
  cases verdict with
  | matched =>
      cases hrun
      obtain ⟨first, hfirst⟩ := exists_succeeds (n := n + 1) hitems h.inside hhere
      rw [h.parts_eq (hfirst.derives.choice_left more).erase]
      exact .inl hfirst
  | failed =>
      cases hframes with
      | failed _ hoffset htoken =>
          have hfails : v.Fails (n + 1) (.choice items) st next :=
            fails_of_run (n := n + 1) hitems h.inside hhere
          have hinside : next.offset ≤ v.text.size := hoffset ▸ h.inside
          obtain ⟨others, hothers⟩ := exists_succeeds (n := n + 1) hmore hinside
            ((Matching.choice_congr more next st hoffset htoken).trans hrun)
          have hderives := hothers.derives
          rw [hoffset] at hderives
          rw [h.parts_eq (hfails.derives.choice_right hderives).erase]
          exact .inr ⟨next, hfails, hothers⟩
  | stopped stop => cases hrun

theorem Fails.of_choice_nil (h : v.Fails (n + 1) (.choice []) st last) : last = st := by
  have hrun := h.run_eq
  cases hrun
  rfl

theorem Fails.of_choice_cons (h : v.Fails (n + 1) (.choice (p :: items)) st last) :
    ∃ next, v.Fails n p st next ∧
      v.Fails (n + 1) (.choice items) (next.returnTo v.setting.observer st) last := by
  obtain ⟨hp, hitems⟩ := sound_others h.sound
  have hrun := h.run_eq
  rw [Matching.run, Matching.choice] at hrun
  rcases hhere : Matching.run v.setting n p st with ⟨verdict, next⟩
  rw [hhere] at hrun
  cases verdict with
  | matched => cases hrun
  | failed =>
      have hback : (next.returnTo v.setting.observer st).offset ≤ v.text.size := h.inside
      refine ⟨next, fails_of_run hp h.inside hhere, ?_⟩
      exact fails_of_run (n := n + 1) hitems hback
        ((Matching.choice_congr items (next.returnTo v.setting.observer st) st rfl rfl).trans hrun)
  | stopped stop => cases hrun

/-! ## Loops -/

theorem sound_star (h : v.Sound (.star site p)) :
    v.Sound p ∧ p.nullable (recordable v.dialect).toSound.traits.nullable = false := by
  simp only [Sound, Pattern.sound, Bool.and_eq_true, Bool.not_eq_true'] at h
  exact ⟨h.2, h.1.1⟩

theorem Succeeds.of_star (h : v.Succeeds (n + 1) (.star site p) st last parts) :
    (∃ next, v.Fails n p st next ∧ last = next.returnTo v.setting.observer st ∧ parts = []) ∨
      ∃ middle first others, v.Succeeds n p st middle first ∧
        v.Succeeds (n + 1) (.star site p) middle last others ∧ parts = first ++ others := by
  obtain ⟨hp, -⟩ := sound_star h.sound
  have hrun := h.run_eq
  simp only [Matching.run, Matching.roundLimit, Matching.repeated] at hrun
  rcases hhere : Matching.run v.setting n p st with ⟨verdict, middle⟩
  rw [hhere] at hrun
  cases verdict with
  | matched =>
      obtain ⟨first, hfirst⟩ := exists_succeeds hp h.inside hhere
      have hmore : Matching.run v.setting (n + 1) (.star site p) middle = ⟨.matched, last⟩ :=
        Matching.repeated_eq_matched hrun
      obtain ⟨others, hothers⟩ := exists_succeeds h.sound hfirst.stays hmore
      refine .inr ⟨middle, first, others, hfirst, hothers, h.parts_eq ?_⟩
      exact .starMore hfirst.derives.erase hothers.derives.erase
  | failed =>
      cases hrun
      have hfails := fails_of_run hp h.inside hhere
      exact .inl ⟨middle, hfails, rfl, h.parts_eq (.starStop hfails.derives.erase id)⟩
  | stopped stop => cases hrun

theorem not_fails_star : ¬v.Fails (n + 1) (.star site p) st last := by
  intro h
  exact Derives.not_failed_star h.derives.erase

/-- A loop is followed round by round, to the one that fails. -/
theorem Succeeds.star_induction {motive : State (List Capture) → List Tree → Prop}
    (h : v.Succeeds (n + 1) (.star site p) st last parts)
    (stop : ∀ s next, v.Fails n p s next → last = next.returnTo v.setting.observer s → motive s [])
    (more : ∀ s middle first others, v.Succeeds n p s middle first →
      v.Succeeds (n + 1) (.star site p) middle last others → motive middle others →
        motive s (first ++ others)) : motive st parts := by
  obtain ⟨-, htakes⟩ := sound_star h.sound
  induction hleft : v.text.size - st.offset using Nat.strongRecOn generalizing st parts with
  | ind left ih =>
      rcases h.of_star with
        ⟨next, hfails, hlast, rfl⟩ | ⟨middle, first, others, hfirst, hothers, rfl⟩
      · exact stop st next hfails hlast
      · refine more st middle first others hfirst hothers (ih _ ?_ hothers rfl)
        have hlt := hfirst.offset_lt htakes
        have hstays := hfirst.stays
        omega

theorem sound_plus (h : v.Sound (.plus site p)) : v.Sound p ∧ v.Sound (.star site p) := by
  have hstar : v.Sound (.star site p) := h
  exact ⟨(sound_star hstar).1, hstar⟩

theorem Succeeds.of_plus (h : v.Succeeds (n + 1) (.plus site p) st last parts) :
    ∃ middle first others, v.Succeeds n p st middle first ∧
      v.Succeeds (n + 1) (.star site p) middle last others ∧ parts = first ++ others := by
  obtain ⟨hp, hstar⟩ := sound_plus h.sound
  have hrun := h.run_eq
  rw [Matching.run] at hrun
  rcases hhere : Matching.run v.setting n p st with ⟨verdict, middle⟩
  rw [hhere] at hrun
  cases verdict with
  | matched =>
      obtain ⟨first, hfirst⟩ := exists_succeeds hp h.inside hhere
      obtain ⟨others, hothers⟩ := exists_succeeds (n := n + 1) hstar hfirst.stays hrun
      refine ⟨middle, first, others, hfirst, hothers, h.parts_eq ?_⟩
      exact .plusMore hfirst.derives.erase hothers.derives.erase
  | failed => cases hrun
  | stopped stop => cases hrun

theorem Fails.of_plus (h : v.Fails (n + 1) (.plus site p) st last) : v.Fails n p st last := by
  obtain ⟨hp, hstar⟩ := sound_plus h.sound
  have hrun := h.run_eq
  rw [Matching.run] at hrun
  rcases hhere : Matching.run v.setting n p st with ⟨verdict, middle⟩
  rw [hhere] at hrun
  cases verdict with
  | matched =>
      have hinside := (exists_succeeds hp h.inside hhere).elim fun _ => Succeeds.stays
      exact absurd (fails_of_run (n := n + 1) hstar hinside hrun) not_fails_star
  | failed =>
      cases hrun
      exact fails_of_run hp h.inside hhere
  | stopped stop => cases hrun

theorem Succeeds.of_opt (h : v.Succeeds (n + 1) (.opt p) st last parts) :
    v.Succeeds n p st last parts ∨
      ∃ next, v.Fails n p st next ∧ last = next.returnTo v.setting.observer st := by
  have hp : v.Sound p := h.sound
  have hrun := h.run_eq
  simp only [Matching.run, Matching.repeatedAtMost] at hrun
  rcases hhere : Matching.run v.setting n p st with ⟨verdict, middle⟩
  rw [hhere] at hrun
  cases verdict with
  | matched =>
      cases hrun
      obtain ⟨first, hfirst⟩ := exists_succeeds hp h.inside hhere
      rw [h.parts_eq (.opt hfirst.derives.erase)]
      exact .inl hfirst
  | failed =>
      cases hrun
      exact .inr ⟨middle, fails_of_run hp h.inside hhere, rfl⟩
  | stopped stop => cases hrun

theorem sound_until {stop : Pattern} (h : v.Sound (.repeatUntil site stop p)) :
    v.Sound stop ∧ v.Sound p ∧
      p.nullable (recordable v.dialect).toSound.traits.nullable = false := by
  simp only [Sound, Pattern.sound, Bool.and_eq_true, Bool.not_eq_true'] at h
  exact ⟨h.1.2, h.2, h.1.1.1⟩

theorem Succeeds.of_until {stop : Pattern}
    (h : v.Succeeds (n + 1) (.repeatUntil site stop p) st last parts) :
    v.Succeeds n stop st last parts ∨
      ∃ next middle first others, v.Fails n stop st next ∧ v.Succeeds n p next middle first ∧
        v.Succeeds (n + 1) (.repeatUntil site stop p) middle last others ∧
          parts = first ++ others := by
  obtain ⟨hstop, hp, -⟩ := sound_until h.sound
  have hrun := h.run_eq
  simp only [Matching.run, Matching.roundLimit, Matching.repeatedUntil] at hrun
  rcases hhere : Matching.run v.setting n stop st with ⟨verdict, next⟩
  rw [hhere] at hrun
  cases verdict with
  | matched =>
      cases hrun
      obtain ⟨first, hfirst⟩ := exists_succeeds hstop h.inside hhere
      rw [h.parts_eq (.untilHere hfirst.derives.erase (by simp))]
      exact .inl hfirst
  | failed =>
      have hfails := fails_of_run hstop h.inside hhere
      have hinside : next.offset ≤ v.text.size := hfails.back ▸ h.inside
      dsimp only at hrun
      rcases hround : Matching.run v.setting n p next with ⟨verdict, middle⟩
      rw [hround] at hrun
      cases verdict with
      | matched =>
          obtain ⟨first, hfirst⟩ := exists_succeeds hp hinside hround
          have hmore : Matching.run v.setting (n + 1) (.repeatUntil site stop p) middle =
              ⟨.matched, last⟩ := Matching.repeatedUntil_eq_matched hrun
          obtain ⟨others, hothers⟩ := exists_succeeds h.sound hfirst.stays hmore
          refine .inr ⟨next, middle, first, others, hfails, hfirst, hothers, h.parts_eq ?_⟩
          have hbody := hfirst.derives.erase
          rw [hfails.back] at hbody
          exact .untilMore hfails.derives.erase hbody hothers.derives.erase
      | failed => cases hrun
      | stopped stop => cases hrun
  | stopped stop => cases hrun

/-- A loop is followed round by round, to its stop. -/
theorem Succeeds.until_induction {stop : Pattern}
    {motive : State (List Capture) → List Tree → Prop}
    (h : v.Succeeds (n + 1) (.repeatUntil site stop p) st last parts)
    (here : ∀ s parts, v.Succeeds n stop s last parts → motive s parts)
    (more : ∀ s next middle first others, v.Fails n stop s next → v.Succeeds n p next middle first →
      v.Succeeds (n + 1) (.repeatUntil site stop p) middle last others → motive middle others →
        motive s (first ++ others)) : motive st parts := by
  obtain ⟨-, -, htakes⟩ := sound_until h.sound
  induction hleft : v.text.size - st.offset using Nat.strongRecOn generalizing st parts with
  | ind left ih =>
      rcases h.of_until with hstop | ⟨next, middle, first, others, hfails, hfirst, hothers, rfl⟩
      · exact here st parts hstop
      · refine more st next middle first others hfails hfirst hothers (ih _ ?_ hothers rfl)
        have hlt := hfirst.offset_lt htakes
        have hback := hfails.back
        have hstays := hfirst.stays
        omega

/-! ## Committed parts and rules -/

theorem Succeeds.of_must (h : v.Succeeds (n + 1) (.must p) st last parts) :
    v.Succeeds n p st last parts := by
  have hrun := h.run_eq
  rw [Matching.run, Matching.committed] at hrun
  rcases hhere : Matching.run v.setting n p st with ⟨verdict, middle⟩
  rw [hhere] at hrun
  cases verdict with
  | matched =>
      cases hrun
      exact ⟨h.sound, h.inside, hhere, h.stays, h.derives.of_must⟩
  | failed => cases hrun
  | stopped stop => cases hrun

theorem sound_body {name : String} {rule : Rule}
    (hrule : v.dialect.grammar.rule? name = some rule) :
    v.Sound rule.body :=
  (recordable v.dialect).toSound.sound rule (Grammar.mem_of_rule? hrule)

theorem Succeeds.of_rule {name : String} (h : v.Succeeds (n + 1) (.rule name) st last parts) :
    ∃ rule middle inner, v.dialect.grammar.rule? name = some rule ∧
      v.Succeeds n rule.body (st.enter rule) middle inner ∧
        last = (middle.leave rule).announce v.setting.observer rule st.offset ∧
          parts = [.node rule inner] := by
  obtain ⟨-, rule, hrule⟩ := (recordable v.dialect).toSound.defined name h.sound
  have hfound : v.setting.rule? name = some rule := hrule
  have hrun := h.run_eq
  simp only [Matching.run, hfound, Matching.named] at hrun
  rcases hhere : Matching.run v.setting n rule.body (st.enter rule) with ⟨verdict, middle⟩
  rw [hhere] at hrun
  cases verdict with
  | matched =>
      cases hrun
      have hinside : (st.enter rule).offset ≤ v.text.size := h.inside
      obtain ⟨inner, hinner⟩ := exists_succeeds (sound_body hrule) hinside hhere
      refine ⟨rule, middle, inner, hrule, hinner, rfl, h.parts_eq ?_⟩
      rw [State.offset_announce, State.offset_leave]
      exact .rule hrule hinner.derives.erase
  | failed => cases hrun
  | stopped stop => cases hrun

theorem Fails.of_rule {name : String} (h : v.Fails (n + 1) (.rule name) st last) :
    ∃ rule next, v.dialect.grammar.rule? name = some rule ∧
      v.Fails n rule.body (st.enter rule) next ∧ last.observed = next.observed := by
  obtain ⟨-, rule, hrule⟩ := (recordable v.dialect).toSound.defined name h.sound
  have hfound : v.setting.rule? name = some rule := hrule
  have hrun := h.run_eq
  simp only [Matching.run, hfound, Matching.named] at hrun
  rcases hhere : Matching.run v.setting n rule.body (st.enter rule) with ⟨verdict, next⟩
  rw [hhere] at hrun
  cases verdict with
  | matched => cases hrun
  | failed =>
      cases hrun
      have hinside : (st.enter rule).offset ≤ v.text.size := h.inside
      exact ⟨rule, next, hrule, fails_of_run (sound_body hrule) hinside hhere, rfl⟩
  | stopped stop => cases hrun

theorem sound_target {name : String} (h : v.Sound (.ref site name)) : v.Sound (.rule name) := by
  simp only [Sound, Pattern.sound, Bool.and_eq_true] at h
  exact h.2

theorem run_ref {name : String} (h : v.Sound (.ref site name)) :
    Matching.run v.setting (n + 1) (.ref site name) st =
      Matching.run v.setting n (.rule name) st := by
  simp only [Sound, Pattern.sound, Bool.and_eq_true, Option.isNone_iff_eq_none] at h
  obtain ⟨rfl, hname⟩ := h
  have hlinked : v.setting.isLinked none name = true :=
    ((recordable v.dialect).toSound.defined name hname).1
  rw [Matching.run, hlinked, if_pos rfl]

theorem Succeeds.of_ref {name : String} (h : v.Succeeds (n + 1) (.ref site name) st last parts) :
    v.Succeeds n (.rule name) st last parts :=
  ⟨sound_target h.sound, h.inside, (run_ref h.sound).symm.trans h.run_eq, h.stays,
    h.derives.of_ref.2⟩

theorem Fails.of_ref {name : String} (h : v.Fails (n + 1) (.ref site name) st last) :
    v.Fails n (.rule name) st last :=
  ⟨sound_target h.sound, h.inside, (run_ref h.sound).symm.trans h.run_eq, h.back,
    h.derives.of_ref.2⟩

end Survey

end CartLua
