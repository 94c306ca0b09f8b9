import CartLua.Proofs.Derivation.Outlines
import CartLua.Proofs.Tally.Unwatched

/-!
# What a tally hears of a match

Where enough is known of a text, a match is followed from place to place: what each pattern takes,
where the last token ends then, and what the tally has heard meanwhile.  Each way of putting
patterns together has a rule of its own here, as in a logic of programs.

Depth is left open.  What is said of a match is that it either ends as told or is stopped for
depth, so that the depth has to be found only once, for the whole match.
-/

namespace CartLua

open Dialect

/-- What is known of a place in a text. -/
structure Spot where
  /-- What is left of the text. -/
  left : List Char
  /-- What is left of it from the end of the last token on, if that is known. -/
  token : Option (List Char)
  /-- How many padding rules are being matched. -/
  padding : Nat

namespace Spot

/-- The same place inside a rule. -/
def inside (a : Spot) (rule : Rule) : Spot :=
  { a with padding := a.padding + if rule.padding then 1 else 0 }

/-- The place after a terminal.  Outside padding it ends a token. -/
def after (a : Spot) (left : List Char) : Spot :=
  { a with
    left := left
    token := if a.padding = 0 then some left else a.token }

end Spot

namespace Matching

variable {σ : Type} {observer : Observer σ} {step : Pattern → State σ → Outcome σ}
  {origin st : State σ}

/-- Where a sequence began only matters if it fails. -/
theorem sequence_congr {items : List Pattern} (origin' : State σ)
    (h : (sequence observer step origin items st).verdict ≠ .failed) :
    sequence observer step origin' items st = sequence observer step origin items st := by
  induction items generalizing st with
  | nil => rfl
  | cons item items ih =>
      rw [sequence] at h
      rw [sequence, sequence]
      rcases hitem : step item st with ⟨verdict, next⟩
      rw [hitem] at h
      cases verdict with
      | matched => exact ih h
      | failed => exact absurd rfl h
      | stopped stop => rfl

end Matching

namespace Survey

variable (v : Survey)

/-- The text of a match up to the end of its last token. -/
def textOf (c : Capture) : List Char := Position.piece v.text c.start c.tokenEnd

/-- Whether a match stands at a place, outside lookaheads and quiet rules. -/
structure At (a : Spot) (st : State (List Capture)) : Prop where
  inside : st.offset ≤ v.text.size
  left_eq : v.rest st.offset = a.left
  token_eq : ∀ token ∈ a.token, st.tokenEnd ≤ v.text.size ∧ v.rest st.tokenEnd = token
  padding_eq : st.padding = a.padding
  quiet_eq : st.quiet = 0

/-- Whether the matches of some texts have been written down between two states. -/
def Hears (heard : List (List Char)) (st last : State (List Capture)) : Prop :=
  ∃ told, last.observed = told ++ st.observed ∧ told.reverse.map v.textOf = heard

/-- Whether a match leads to a place with some texts heard on the way, unless it is stopped for
depth. -/
inductive Arrives (b : Spot) (heard : List (List Char)) (st : State (List Capture)) :
    Outcome (List Capture) → Prop
  | tooDeep {last : State (List Capture)} : Arrives b heard st ⟨.stopped .tooDeep, last⟩
  | matched {last : State (List Capture)} (place : v.At b last) (hears : v.Hears heard st last) :
      Arrives b heard st ⟨.matched, last⟩

/-- Whether a match fails with nothing heard, unless it is stopped for depth. -/
inductive Recoils (st : State (List Capture)) : Outcome (List Capture) → Prop
  | tooDeep {last : State (List Capture)} : Recoils st ⟨.stopped .tooDeep, last⟩
  | failed {last : State (List Capture)} (observed_eq : last.observed = st.observed) :
      Recoils st ⟨.failed, last⟩

/-- Whether a pattern leads from one place to another, and some texts are heard of it. -/
def Reads (p : Pattern) (a b : Spot) (heard : List (List Char)) : Prop :=
  ∀ n st, v.At a st → v.Arrives b heard st (Matching.run v.setting n p st)

/-- Whether a pattern fails at a place, and nothing is heard of it. -/
def Refuses (p : Pattern) (a : Spot) : Prop :=
  ∀ n st, v.At a st → Recoils st (Matching.run v.setting n p st)

/-- Whether the rounds of a loop lead from one place to another, if they are not fewer than the
characters left. -/
def ReadsRounds (p : Pattern) (a b : Spot) (heard : List (List Char)) : Prop :=
  ∀ n rounds st, v.At a st → a.left.length < rounds →
    v.Arrives b heard st
      (Matching.repeated v.setting.observer (Matching.run v.setting n p) rounds st)

variable {v} {n : Nat} {p : Pattern} {items : List Pattern} {site : Site} {a b c : Spot}
  {heard more : List (List Char)} {st next last : State (List Capture)}

theorem Hears.refl (st : State (List Capture)) : v.Hears [] st st := ⟨[], rfl, rfl⟩

theorem Hears.trans (h : v.Hears heard st next) (hmore : v.Hears more next last) :
    v.Hears (heard ++ more) st last := by
  obtain ⟨told, htold, rfl⟩ := h
  obtain ⟨later, hlater, rfl⟩ := hmore
  exact ⟨later ++ told, by rw [hlater, htold, List.append_assoc], by simp⟩

theorem Hears.of_observed_eq (h : v.Hears heard next last) (heq : next.observed = st.observed) :
    v.Hears heard st last := by
  obtain ⟨told, htold, hheard⟩ := h
  exact ⟨told, htold.trans (congrArg (told ++ ·) heq), hheard⟩

theorem Arrives.after {outcome : Outcome (List Capture)} (h : v.Arrives b more next outcome)
    (hears : v.Hears heard st next) : v.Arrives b (heard ++ more) st outcome := by
  cases h with
  | tooDeep => exact .tooDeep
  | matched place others => exact .matched place (hears.trans others)

theorem Arrives.of_observed_eq {outcome : Outcome (List Capture)}
    (h : v.Arrives b heard next outcome) (heq : next.observed = st.observed) :
    v.Arrives b heard st outcome := by
  cases h with
  | tooDeep => exact .tooDeep
  | matched place hears => exact .matched place (hears.of_observed_eq heq)

theorem Arrives.ne_failed {outcome : Outcome (List Capture)} (h : v.Arrives b heard st outcome) :
    outcome.verdict ≠ .failed := by
  cases h <;> nofun

/-- A failed match is followed by others at the place where it began. -/
theorem At.returnTo {origin : State (List Capture)} (h : v.At a origin)
    (haround : origin.Around last) : v.At a (last.returnTo v.setting.observer origin) where
  inside := h.inside
  left_eq := h.left_eq
  token_eq := h.token_eq
  padding_eq := haround.padding.trans h.padding_eq
  quiet_eq := haround.quiet.trans h.quiet_eq

theorem At.around_run (p : Pattern) (n : Nat) (st : State (List Capture)) :
    st.Around (Matching.run v.setting n p st).state :=
  (Matching.framing_run v.setting n p st).around

/-! ## Sequences -/

theorem Reads.nil : v.Reads (.seq []) a a [] := by
  intro n st hst
  cases n with
  | zero => exact .tooDeep
  | succ n => exact .matched hst (.refl st)

theorem Reads.seq (h : v.Reads p a b heard) (hothers : v.Reads (.seq items) b c more) :
    v.Reads (.seq (p :: items)) a c (heard ++ more) := by
  intro n st hst
  cases n with
  | zero => exact .tooDeep
  | succ n =>
      have hfirst := h n st hst
      rw [Matching.run, Matching.sequence]
      generalize Matching.run v.setting n p st = x at hfirst
      cases hfirst with
      | tooDeep => exact .tooDeep
      | @matched next place hears =>
          have hnext := hothers (n + 1) next place
          rw [Matching.run] at hnext
          dsimp only
          rw [Matching.sequence_congr st hnext.ne_failed]
          exact hnext.after hears

theorem Refuses.seq_first (h : v.Refuses p a) (items : List Pattern) :
    v.Refuses (.seq (p :: items)) a := by
  intro n st hst
  cases n with
  | zero => exact .tooDeep
  | succ n =>
      have hfirst := h n st hst
      rw [Matching.run, Matching.sequence]
      generalize Matching.run v.setting n p st = x at hfirst
      cases hfirst with
      | tooDeep => exact .tooDeep
      | failed hseen => exact .failed hseen

theorem Refuses.seq_later (h : v.Reads p a b []) (hothers : v.Refuses (.seq items) b) :
    v.Refuses (.seq (p :: items)) a := by
  intro n st hst
  cases n with
  | zero => exact .tooDeep
  | succ n =>
      have hfirst := h n st hst
      rw [Matching.run, Matching.sequence]
      generalize Matching.run v.setting n p st = x at hfirst
      cases hfirst with
      | tooDeep => exact .tooDeep
      | @matched next place hears =>
          obtain ⟨told, htold, hnone⟩ := hears
          obtain rfl : told = [] := by simpa using hnone
          have hnext := hothers (n + 1) next place
          rw [Matching.run] at hnext
          dsimp only
          generalize hx : Matching.sequence v.setting.observer (Matching.run v.setting n) next
            items next = x at hnext
          cases hnext with
          | tooDeep =>
              rw [Matching.sequence_congr st (by rw [hx]; simp), hx]
              exact .tooDeep
          | failed hseen =>
              obtain ⟨later, rfl, hlater⟩ := Matching.sequence_eq_failed st hx
              rw [hlater]
              exact .failed (hseen.trans htold)

/-! ## Choices -/

theorem Reads.choice_here (h : v.Reads p a b heard) (items : List Pattern) :
    v.Reads (.choice (p :: items)) a b heard := by
  intro n st hst
  cases n with
  | zero => exact .tooDeep
  | succ n =>
      have hfirst := h n st hst
      rw [Matching.run, Matching.choice]
      generalize Matching.run v.setting n p st = x at hfirst
      cases hfirst with
      | tooDeep => exact .tooDeep
      | matched place hears => exact .matched place hears

theorem Reads.choice_next (hfails : v.Refuses p a) (h : v.Reads (.choice items) a b heard) :
    v.Reads (.choice (p :: items)) a b heard := by
  intro n st hst
  cases n with
  | zero => exact .tooDeep
  | succ n =>
      have hfirst := hfails n st hst
      have haround := At.around_run (v := v) p n st
      rw [Matching.run, Matching.choice]
      generalize Matching.run v.setting n p st = x at hfirst haround
      cases hfirst with
      | tooDeep => exact .tooDeep
      | @failed next hseen =>
          have hnext := h (n + 1) _ (hst.returnTo haround)
          rw [Matching.run] at hnext
          dsimp only
          rw [Matching.choice_congr items st (next.returnTo v.setting.observer st) rfl rfl]
          exact hnext.of_observed_eq hseen

/-- A choice reads what its first alternative reads that does not refuse. -/
theorem Reads.choice_of {before : List Pattern} (hbefore : ∀ q ∈ before, v.Refuses q a)
    (h : v.Reads p a b heard) (items : List Pattern) :
    v.Reads (.choice (before ++ p :: items)) a b heard := by
  induction before with
  | nil => exact h.choice_here items
  | cons q before ih =>
      exact .choice_next (hbefore q List.mem_cons_self)
        (ih fun other hother => hbefore other (List.mem_cons_of_mem q hother))

theorem Refuses.choice (h : ∀ q ∈ items, v.Refuses q a) : v.Refuses (.choice items) a := by
  induction items with
  | nil =>
      intro n st hst
      cases n with
      | zero => exact .tooDeep
      | succ n => exact .failed rfl
  | cons item items ih =>
      intro n st hst
      cases n with
      | zero => exact .tooDeep
      | succ n =>
          have hfirst := h item List.mem_cons_self n st hst
          have haround := At.around_run (v := v) item n st
          rw [Matching.run, Matching.choice]
          generalize Matching.run v.setting n item st = x at hfirst haround
          cases hfirst with
          | tooDeep => exact .tooDeep
          | @failed next hseen =>
              have hnext := ih (fun q hq => h q (List.mem_cons_of_mem item hq)) (n + 1) _
                (hst.returnTo haround)
              rw [Matching.run] at hnext
              dsimp only
              rw [Matching.choice_congr items st (next.returnTo v.setting.observer st) rfl rfl]
              generalize Matching.choice v.setting.observer _ _ items _ = y at hnext
              cases hnext with
              | tooDeep => exact .tooDeep
              | failed hlater => exact .failed (hlater.trans hseen)

/-! ## Loops, options and committed parts -/

theorem Refuses.rounds (h : v.Refuses p a) : v.ReadsRounds p a a [] := by
  intro n rounds st hst hrounds
  cases rounds with
  | zero => exact absurd hrounds (Nat.not_lt_zero _)
  | succ rounds =>
      have hround := h n st hst
      have haround := At.around_run (v := v) p n st
      rw [Matching.repeated]
      generalize Matching.run v.setting n p st = x at hround haround
      cases hround with
      | tooDeep => exact .tooDeep
      | failed hseen => exact .matched (hst.returnTo haround) ⟨[], hseen, rfl⟩

theorem Reads.rounds (h : v.Reads p a b heard) (hlt : b.left.length < a.left.length)
    (hothers : v.ReadsRounds p b c more) : v.ReadsRounds p a c (heard ++ more) := by
  intro n rounds st hst hrounds
  cases rounds with
  | zero => exact absurd hrounds (Nat.not_lt_zero _)
  | succ rounds =>
      have hround := h n st hst
      rw [Matching.repeated]
      generalize Matching.run v.setting n p st = x at hround
      cases hround with
      | tooDeep => exact .tooDeep
      | @matched next place hears =>
          exact (hothers n rounds next place (by omega)).after hears

theorem At.length_left (h : v.At a st) : a.left.length = v.text.size - st.offset := by
  rw [← h.left_eq, rest, Text.length_rest]

/-- A loop has rounds enough for all the characters left. -/
theorem ReadsRounds.star (h : v.ReadsRounds p a b heard) : v.Reads (.star site p) a b heard := by
  intro n st hst
  cases n with
  | zero => exact .tooDeep
  | succ n =>
      have hleft := hst.length_left
      have hsize : v.setting.text.size = v.text.size := rfl
      rw [Matching.run]
      exact h n _ st hst (by rw [Matching.roundLimit]; omega)

theorem Reads.opt (h : v.Reads p a b heard) : v.Reads (.opt p) a b heard := by
  intro n st hst
  cases n with
  | zero => exact .tooDeep
  | succ n =>
      have hinner := h n st hst
      rw [Matching.run, Matching.repeatedAtMost]
      generalize Matching.run v.setting n p st = x at hinner
      cases hinner with
      | tooDeep => exact .tooDeep
      | matched place hears => exact .matched place hears

theorem Refuses.opt (h : v.Refuses p a) : v.Reads (.opt p) a a [] := by
  intro n st hst
  cases n with
  | zero => exact .tooDeep
  | succ n =>
      have hinner := h n st hst
      have haround := At.around_run (v := v) p n st
      rw [Matching.run, Matching.repeatedAtMost]
      generalize Matching.run v.setting n p st = x at hinner haround
      cases hinner with
      | tooDeep => exact .tooDeep
      | failed hseen => exact .matched (hst.returnTo haround) ⟨[], hseen, rfl⟩

theorem Reads.must (h : v.Reads p a b heard) : v.Reads (.must p) a b heard := by
  intro n st hst
  cases n with
  | zero => exact .tooDeep
  | succ n =>
      have hinner := h n st hst
      rw [Matching.run, Matching.committed]
      generalize Matching.run v.setting n p st = x at hinner
      cases hinner with
      | tooDeep => exact .tooDeep
      | matched place hears => exact .matched place hears

/-! ## Rules -/

section Rules

variable {rule : Rule}

theorem At.enter (h : v.At a st) (hquiet : rule.quiet = false) :
    v.At (a.inside rule) (st.enter rule) where
  inside := h.inside
  left_eq := h.left_eq
  token_eq := h.token_eq
  padding_eq := by
    have hpadding := h.padding_eq
    cases hrule : rule.padding <;> simp [State.enter, Spot.inside, hrule, hpadding]
  quiet_eq := by simpa [State.enter, hquiet] using h.quiet_eq

theorem At.leave (h : v.At (a.inside rule) st) (hquiet : rule.quiet = false) :
    v.At a (st.leave rule) where
  inside := h.inside
  left_eq := h.left_eq
  token_eq := h.token_eq
  padding_eq := by
    have hpadding := h.padding_eq
    cases hrule : rule.padding <;> simp [State.leave, Spot.inside, hrule] at hpadding ⊢ <;> omega
  quiet_eq := by simpa [State.leave, hquiet] using h.quiet_eq

/-- What is told of a rule does not change where a match stands. -/
theorem At.announce (h : v.At a st) (begin : Nat) :
    v.At a (st.announce v.setting.observer rule begin) := by
  rw [State.announce]
  split
  · split
    · exact ⟨h.inside, h.left_eq, h.token_eq, h.padding_eq, h.quiet_eq⟩
    · exact h
  · exact h

theorem run_call (hrule : rule ∈ v.dialect.rules) (n : Nat) (st : State (List Capture)) :
    Matching.run v.setting (n + 2) (.call rule.name) st =
      Matching.named v.setting.observer rule (Matching.run v.setting n rule.body) st := by
  have hlinked : v.setting.isLinked none rule.name = true := isLinked_of_mem hrule
  have hfound : v.setting.rule? rule.name = some rule := rule?_grammar hrule
  simp only [Pattern.call, Matching.run, hlinked, hfound, if_true]

/-- What a rule reads is what its body reads, and it is told of if it is watched. -/
theorem Reads.named (hrule : rule ∈ v.dialect.rules) (hquiet : rule.quiet = false)
    (h : v.Reads rule.body (a.inside rule) (b.inside rule) heard)
    (hears : ∀ st last, v.At a st → v.At b last →
      v.Hears more last (last.announce v.setting.observer rule st.offset)) :
    v.Reads (.call rule.name) a b (heard ++ more) := by
  intro n st hst
  match n with
  | 0 => exact .tooDeep
  | 1 =>
      rw [Pattern.call, Matching.run]
      have hlinked : v.setting.isLinked none rule.name = true := isLinked_of_mem hrule
      rw [if_pos hlinked]
      exact .tooDeep
  | n + 2 =>
      have hbody := h n (st.enter rule) (hst.enter hquiet)
      rw [run_call hrule, Matching.named]
      generalize Matching.run v.setting n rule.body (st.enter rule) = x at hbody
      cases hbody with
      | tooDeep => exact .tooDeep
      | @matched last place hinner =>
          have hlast := place.leave hquiet
          exact .matched (hlast.announce st.offset) (hinner.trans (hears st _ hst hlast))

/-- Nothing more is heard of a rule that is not watched. -/
theorem Reads.call (hrule : rule ∈ v.dialect.rules) (hquiet : rule.quiet = false)
    (hwatched : v.watched.contains rule.name = false)
    (h : v.Reads rule.body (a.inside rule) (b.inside rule) heard) :
    v.Reads (.call rule.name) a b heard := by
  rw [← List.append_nil heard]
  refine h.named hrule hquiet fun st last _ _ => ?_
  rw [State.announce, onMatch_of_not_watched hwatched, ite_self]
  exact .refl last

/-- The text between two places is what is left at the first one and not at the second one. -/
theorem piece_eq {taken token : List Char} {start stop : Nat} (hstart : start ≤ v.text.size)
    (hstop : stop ≤ v.text.size) (hfirst : v.rest start = taken ++ token)
    (hsecond : v.rest stop = token) : Position.piece v.text start stop = taken := by
  have hlength := congrArg List.length hfirst
  have htoken := congrArg List.length hsecond
  rw [List.length_append, rest, Text.length_rest] at hlength
  rw [rest, Text.length_rest] at htoken
  rw [Position.piece_natCast, Array.toList_extract, List.extract_eq_take_drop]
  change (v.rest start).take (stop - start) = taken
  rw [hfirst, show stop - start = taken.length by omega, List.take_left]

/-- The text that is told of a rule ends with its last token. -/
theorem textOf_capture {taken token : List Char} (hst : v.At a st) (hlast : v.At b last)
    (hanchored : rule.anchored = false) (hleft : a.left = taken ++ token)
    (htoken : b.token = some token) (hle : b.left.length ≤ token.length) :
    v.textOf (last.capture rule st.offset) = taken := by
  obtain ⟨hinside, hrest⟩ := hlast.token_eq token htoken
  have hfirst : v.rest st.offset = taken ++ token := hst.left_eq.trans hleft
  have hbefore := hst.length_left
  have hbehind := hlast.length_left
  have hlength := congrArg List.length hrest
  rw [rest, Text.length_rest] at hlength
  rw [hleft, List.length_append] at hbefore
  have hstart := hst.inside
  have hstop := hlast.inside
  have hend : max (st.offset : Int) (min (last.tokenEnd : Int) last.offset) = last.tokenEnd := by
    omega
  simp only [textOf, State.capture, Capture.ofSpan, hanchored, Bool.false_eq_true, if_false, hend]
  exact piece_eq hstart hinside hfirst hrest

/-- Of a watched rule the text up to its last token is heard, after all that is heard in it. -/
theorem Reads.call_watched {taken token : List Char} (hrule : rule ∈ v.dialect.rules)
    (hquiet : rule.quiet = false) (hanchored : rule.anchored = false)
    (hwatched : v.watched.contains rule.name = true) (hleft : a.left = taken ++ token)
    (htoken : b.token = some token) (hle : b.left.length ≤ token.length)
    (h : v.Reads rule.body (a.inside rule) (b.inside rule) heard) :
    v.Reads (.call rule.name) a b (heard ++ [taken]) := by
  refine h.named hrule hquiet fun st last hst hlast => ?_
  have hact : v.setting.observer.onMatch rule.name = some fun c seen => c :: seen := by
    change (if v.watched.contains rule.name then _ else none) = _
    rw [if_pos hwatched]
  refine ⟨[last.capture rule st.offset], ?_, ?_⟩
  · rw [State.announce, if_pos hlast.quiet_eq, hact]
    rfl
  · simp [textOf_capture hst hlast hanchored hleft htoken hle]

theorem Refuses.call (hrule : rule ∈ v.dialect.rules) (hquiet : rule.quiet = false)
    (h : v.Refuses rule.body (a.inside rule)) : v.Refuses (.call rule.name) a := by
  intro n st hst
  match n with
  | 0 => exact .tooDeep
  | 1 =>
      rw [Pattern.call, Matching.run]
      have hlinked : v.setting.isLinked none rule.name = true := isLinked_of_mem hrule
      rw [if_pos hlinked]
      exact .tooDeep
  | n + 2 =>
      have hbody := h n (st.enter rule) (hst.enter hquiet)
      rw [run_call hrule, Matching.named]
      generalize Matching.run v.setting n rule.body (st.enter rule) = x at hbody
      cases hbody with
      | tooDeep => exact .tooDeep
      | failed hseen => exact .failed hseen

end Rules

/-! ## Terminals and patterns that write nothing down -/

theorem Reads.terminal {t : Terminal} {cs left : List Char} (ht : t.Bounded)
    (h : t.answer a.left = .matched [.chars cs] left) :
    v.Reads (.terminal t) a (a.after left) [] := by
  intro n st hst
  cases n with
  | zero => exact .tooDeep
  | succ n =>
      have hscan : t.scan v.setting.text st.offset = t.scan a.left.toArray 0 := by
        change t.scan v.text st.offset = _
        rw [Terminal.scan_eq_scan_rest t hst.inside, ← hst.left_eq]
        rfl
      rw [Matching.run, Matching.terminal]
      rw [Terminal.answer] at h
      cases hhere : t.scan a.left.toArray 0 with
      | take count =>
          rw [hhere] at h
          obtain rfl : a.left.drop count = left := by
            injection h
          rw [hscan, hhere]
          have hle := Terminal.scan_take_le ht hst.inside (hscan.trans hhere)
          have hrest : v.rest (st.offset + count) = a.left.drop count := by
            rw [rest, Text.rest_add, ← hst.left_eq]
            rfl
          refine .matched ⟨hle, hrest, ?_, hst.padding_eq, hst.quiet_eq⟩ ⟨[], rfl, rfl⟩
          intro token htoken
          have hpadding := hst.padding_eq
          by_cases hzero : a.padding = 0
          · rw [hzero] at hpadding
            rw [Spot.after, if_pos hzero] at htoken
            obtain rfl := Option.some.inj htoken
            simp only [State.advance, State.moveTo, hpadding]
            exact ⟨hle, hrest⟩
          · have hinside : st.padding ≠ 0 := by omega
            rw [Spot.after, if_neg hzero] at htoken
            simp only [State.advance, State.moveTo, if_neg hinside]
            exact hst.token_eq token htoken
      | stay => rw [hhere] at h; cases h
      | miss => rw [hhere] at h; cases h
      | unclosed level => rw [hhere] at h; cases h

section Barren

variable {names : List String}

/-- What uses no watched rule ends as the text says, and nothing is heard of it. -/
theorem Barren.reads {left : List Char} (hnames : v.Barren names) (hp : p.usesOnly names = true)
    (hsound : v.Sound p) (h : Takes v.dialect.grammar p a.left left) :
    v.Reads p a ⟨left, none, a.padding⟩ [] := by
  intro n st hst
  obtain ⟨parts, hparts⟩ := h
  rw [← hst.left_eq] at hparts
  have hkeeps := hnames.moves.run n hp st
  have haround := At.around_run (v := v) p n st
  have hanswers := answers_run (recordable v.dialect).toSound v.text v.observer n hsound st
    hst.inside
  change Answers _ _ _ _ _ _ (Matching.run v.setting n p st) at hanswers
  rcases hrun : Matching.run v.setting n p st with ⟨verdict, last⟩
  rw [hrun] at hkeeps haround hanswers
  cases verdict with
  | matched =>
      obtain ⟨hsize, others, hothers⟩ := hanswers
      cases hothers.erase.deterministic hparts
      exact .matched ⟨hsize, rfl, nofun, haround.padding.trans hst.padding_eq,
        haround.quiet.trans hst.quiet_eq⟩ ⟨[], hkeeps, rfl⟩
  | failed => cases hanswers.2.erase.deterministic hparts
  | stopped stop =>
      rcases hanswers with ⟨rfl, -⟩ | ⟨-, hbroken⟩
      · exact .tooDeep
      · cases hbroken.erase.deterministic hparts

theorem Barren.refuses (hnames : v.Barren names) (hp : p.usesOnly names = true)
    (hsound : v.Sound p) (h : Derives v.dialect.grammar p a.left .failed) : v.Refuses p a := by
  intro n st hst
  rw [← hst.left_eq] at h
  have hkeeps := hnames.moves.run n hp st
  have hanswers := answers_run (recordable v.dialect).toSound v.text v.observer n hsound st
    hst.inside
  change Answers _ _ _ _ _ _ (Matching.run v.setting n p st) at hanswers
  rcases hrun : Matching.run v.setting n p st with ⟨verdict, last⟩
  rw [hrun] at hkeeps hanswers
  cases verdict with
  | matched =>
      obtain ⟨-, others, hothers⟩ := hanswers
      cases hothers.erase.deterministic h
  | failed => exact .failed hkeeps
  | stopped stop =>
      rcases hanswers with ⟨rfl, -⟩ | ⟨-, hbroken⟩
      · exact .tooDeep
      · cases hbroken.erase.deterministic h

end Barren

end Survey

/-! ## Patterns that refuse -/

namespace Pattern

variable (dialect : Dialect) (names : List String)

/-- Whether one of several patterns in order is seen to refuse after the ones before it have
taken what only some rules take. -/
def balksInOrder (step : Pattern → Outline → Bool) (look : Pattern → Outline → Sight) :
    List Pattern → Outline → Bool
  | [], _ => false
  | item :: items, o =>
      step item o ||
        item.usesOnly names &&
          match look item o with
          | .takes left => balksInOrder step look items left
          | _ => false

/-- Whether a pattern is seen to refuse because its parts do. -/
def balksByParts (step : Pattern → Outline → Bool) (look : Pattern → Outline → Sight)
    (o : Outline) : Pattern → Bool
  | seq items => balksInOrder names step look items o
  | choice items => items.all fun item => step item o
  | ref none name =>
      match dialect.rules.find? fun r => r.name == name with
      | some r => !r.quiet && step r.body o
      | none => false
  | _ => false

/-- Whether a pattern is seen to fail on an outline by what only some rules take, with rules
opened up to a depth. -/
def balks : Nat → Pattern → Outline → Bool
  | 0, _, _ => false
  | n + 1, p, o =>
      p.usesOnly names && decide (look dialect n p o = .fails) ||
        balksByParts dialect names (balks n) (look dialect n) o p

end Pattern

namespace Survey

variable {v : Survey} {names : List String} {p : Pattern} {items : List Pattern}
  {ts : List Token} {rest : List Char}

/-- What is seen to take something on an outline reads it, if it uses no watched rule. -/
theorem Barren.reads_of_look {later : List Token} (hnames : v.Barren names)
    (hp : p.usesOnly names = true) (hsound : v.Sound p) {n : Nat} (before : List Token)
    (h : Token.Fit (before ++ later) rest)
    (hlook : Pattern.look v.dialect n p (Token.outline (before ++ later)) =
      .takes (Token.outline later)) (token : Option (List Char)) (padding : Nat) :
    v.Reads p ⟨Token.text (before ++ later) rest, token, padding⟩
      ⟨Token.text later rest, none, padding⟩ [] :=
  hnames.reads hp hsound (takes_of_look before later h hlook)

theorem Barren.refuses_of_look (hnames : v.Barren names) (hp : p.usesOnly names = true)
    (hsound : v.Sound p) {n : Nat} (h : Token.Fit ts rest)
    (hlook : Pattern.look v.dialect n p (Token.outline ts) = .fails)
    (token : Option (List Char)) (padding : Nat) :
    v.Refuses p ⟨Token.text ts rest, token, padding⟩ :=
  hnames.refuses hp hsound (failed_of_look h hlook)

theorem refuses_of_balksInOrder {n : Nat} (hnames : v.Barren names)
    (hstep : ∀ item ts, v.Sound item → Token.Fit ts rest →
      Pattern.balks v.dialect names n item (Token.outline ts) = true →
        ∀ token padding, v.Refuses item ⟨Token.text ts rest, token, padding⟩)
    (hsound : v.Sound (.seq items)) (h : Token.Fit ts rest)
    (hbalks : Pattern.balksInOrder names (Pattern.balks v.dialect names n)
      (Pattern.look v.dialect n) items (Token.outline ts) = true)
    (token : Option (List Char)) (padding : Nat) :
    v.Refuses (.seq items) ⟨Token.text ts rest, token, padding⟩ := by
  induction items generalizing ts token with
  | nil => cases hbalks
  | cons item items ih =>
      obtain ⟨hitem, hitems⟩ := sound_tail hsound
      rw [Pattern.balksInOrder, Bool.or_eq_true, Bool.and_eq_true] at hbalks
      rcases hbalks with hhere | ⟨hp, hlater⟩
      · exact (hstep item ts hitem h hhere token padding).seq_first items
      · have hholds := Pattern.look_holds v.dialect n item h
        generalize Pattern.look v.dialect n item (Token.outline ts) = x at hholds hlater
        cases x with
        | takes left =>
            obtain ⟨parts, later, hsuffix, rfl, hmatch⟩ := hholds
            exact .seq_later (hnames.reads hp hitem ⟨parts, hmatch⟩)
              (ih hitems (h.of_suffix hsuffix) hlater none)
        | fails => cases hlater
        | breaks => cases hlater
        | unclear => cases hlater

/-- What is seen to refuse on an outline does so on every text of that outline. -/
theorem refuses_of_balks {n : Nat} (hnames : v.Barren names) (hsound : v.Sound p)
    (h : Token.Fit ts rest)
    (hbalks : Pattern.balks v.dialect names n p (Token.outline ts) = true)
    (token : Option (List Char)) (padding : Nat) :
    v.Refuses p ⟨Token.text ts rest, token, padding⟩ := by
  induction n generalizing p ts token padding with
  | zero => cases hbalks
  | succ n ih =>
      rw [Pattern.balks, Bool.or_eq_true, Bool.and_eq_true] at hbalks
      rcases hbalks with ⟨hp, hlook⟩ | hparts
      · exact hnames.refuses_of_look hp hsound h (of_decide_eq_true hlook) token padding
      · cases p with
        | seq items =>
            exact refuses_of_balksInOrder hnames (fun item ts hitem h hhere token padding =>
              ih hitem h hhere token padding) hsound h hparts token padding
        | choice items =>
            refine Refuses.choice fun item hitem => ?_
            exact ih (Pattern.sound_of_mem hsound hitem) h
              (List.all_eq_true.mp hparts item hitem) token padding
        | ref site name =>
            cases site with
            | some site => cases hparts
            | none =>
                rw [Pattern.balksByParts] at hparts
                split at hparts
                next r hfound =>
                  rw [Bool.and_eq_true, Bool.not_eq_true'] at hparts
                  have hname : r.name = name := by simpa using List.find?_some hfound
                  subst hname
                  have hrule : r ∈ v.dialect.rules := List.mem_of_find?_eq_some hfound
                  exact .call hrule hparts.1 (ih (sound_body (rule?_grammar hrule)) h hparts.2 _ _)
                next => cases hparts
        | _ => cases hparts

end Survey

end CartLua
