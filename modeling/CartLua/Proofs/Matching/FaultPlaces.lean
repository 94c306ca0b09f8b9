import CartLua.Proofs.Grammar.Sound
import CartLua.Proofs.Matching.Submatches

/-!
# Where matches and faults are

A match of a sound grammar stays inside the text.  In every state that it goes through the last
token ends at or before the cursor, and the cursor is in the text.  A fault is in the text as
well, and the fault of a long bracket is where that bracket is opened: it is written out there,
and no bracket that would close it follows.
-/

namespace CartLua

namespace Terminal

/-- The opening bracket of a level. -/
def openingBracket (level : Nat) : List Char := '[' :: List.replicate level '=' ++ ['[']

end Terminal

namespace Text

variable {text : Array Char} {offset : Nat}

/-- Whether a long bracket of a level is opened at an offset and not closed behind it. -/
structure OpensUnclosed (text : Array Char) (level offset : Nat) : Prop where
  opens : Terminal.openingBracket level <+: rest text offset
  unclosed : ¬Terminal.closingBracket level <:+: rest text (offset + (level + 2))

/-- The characters of a run have its property. -/
theorem getElem?_of_lt_runEndWithin {p : Char → Bool} {steps k : Nat} (hle : offset ≤ k)
    (hlt : k < runEndWithin text p steps offset) : ∃ c, text[k]? = some c ∧ p c = true := by
  induction steps generalizing offset with
  | zero => exact absurd hlt (Nat.not_lt.mpr hle)
  | succ steps ih =>
      rw [runEndWithin] at hlt
      split at hlt
      · rename_i c hc
        split at hlt
        · rename_i hp
          rcases Nat.eq_or_lt_of_le hle with rfl | hlater
          · exact ⟨c, hc, hp⟩
          · exact ih hlater hlt
        · exact absurd hlt (Nat.not_lt.mpr hle)
      · exact absurd hlt (Nat.not_lt.mpr hle)

theorem startsAt_append {cs ds : List Char} (hcs : startsAt text cs offset = true)
    (hds : startsAt text ds (offset + cs.length) = true) :
    startsAt text (cs ++ ds) offset = true := by
  induction cs generalizing offset with
  | nil => exact hds
  | cons c cs ih =>
      rw [startsAt, Bool.and_eq_true] at hcs
      rw [List.cons_append, startsAt, hcs.1, Bool.true_and]
      refine ih hcs.2 ?_
      rw [List.length_cons] at hds
      rwa [Nat.add_right_comm, Nat.add_assoc]

theorem startsAt_replicate {c : Char} {count : Nat} (hin : offset + count ≤ text.size)
    (hall : ∀ k, offset ≤ k → k < offset + count → text[k]? = some c) :
    startsAt text (List.replicate count c) offset = true := by
  induction count generalizing offset with
  | zero => simpa [startsAt] using hin
  | succ count ih =>
      rw [List.replicate_succ, startsAt, hall offset (Nat.le_refl _) (by omega)]
      simp only [BEq.rfl, Bool.true_and]
      exact ih (by omega) fun k hle hlt => hall k (by omega) (by omega)

/-- What is not found is nowhere behind the place where the search begins. -/
theorem not_startsAt_of_findWithin {needle : List Char} {steps k : Nat}
    (h : findWithin text needle steps offset = none) (hle : offset ≤ k) (hlt : k ≤ offset + steps) :
    startsAt text needle k = false := by
  induction steps generalizing offset with
  | zero =>
      have hk : k = offset := by omega
      rw [findWithin] at h
      split at h
      · cases h
      · rename_i hstarts
        simpa [hk] using hstarts
  | succ steps ih =>
      rw [findWithin] at h
      split at h
      · cases h
      · rename_i hstarts
        rcases Nat.eq_or_lt_of_le hle with rfl | hlater
        · simpa using hstarts
        · exact ih h hlater (by omega)

theorem not_startsAt_of_find? {needle : List Char} {k : Nat}
    (h : find? text needle offset = none) (hle : offset ≤ k) : startsAt text needle k = false := by
  by_cases hk : k ≤ text.size
  · exact not_startsAt_of_findWithin h hle (by omega)
  · refine Bool.eq_false_iff.mpr fun hstarts => ?_
    have := le_size_of_startsAt hstarts
    omega

theorem not_infix_of_find? {needle : List Char} (h : find? text needle offset = none)
    (hoffset : offset ≤ text.size) : ¬needle <:+: rest text offset := by
  rintro ⟨before, after, hsplit⟩
  have hlength := congrArg List.length hsplit
  simp only [List.length_append, length_rest] at hlength
  have hstarts : startsAt text needle (offset + before.length) = true := by
    refine startsAt_iff.mpr ⟨by omega, after, ?_⟩
    change _ = rest text (offset + before.length)
    rw [rest_add, ← hsplit, List.append_assoc, List.drop_left]
  rw [not_startsAt_of_find? h (Nat.le_add_right _ _)] at hstarts
  cases hstarts

end Text

namespace Terminal

/-- Where the run of signs behind a bracket ends, the level says. -/
theorem opensUnclosed_of_find? {text : Array Char} {offset level : Nat}
    (hfirst : Text.startsAt text ['['] offset = true)
    (hrun : Text.runEnd text (· == '=') (offset + 1) = offset + 1 + level)
    (hsecond : Text.startsAt text ['['] (offset + 1 + level) = true)
    (hnone : Text.find? text (closingBracket level) (offset + 1 + level + 1) = none) :
    Text.OpensUnclosed text level offset := by
  have hsize : offset + 1 + level + 1 ≤ text.size := Text.le_size_of_startsAt hsecond
  have hsigns : Text.startsAt text (List.replicate level '=') (offset + 1) = true := by
    refine Text.startsAt_replicate (by omega) fun k hk hlt => ?_
    obtain ⟨c, hc, hsign⟩ := Text.getElem?_of_lt_runEndWithin hk (hrun ▸ hlt)
    rw [hc, beq_iff_eq.mp hsign]
  have hopening : Text.startsAt text (openingBracket level) offset = true := by
    refine Text.startsAt_append (Text.startsAt_append hfirst hsigns) ?_
    simpa [Nat.add_assoc, Nat.add_comm, Nat.add_left_comm] using hsecond
  have hbehind : offset + 1 + level + 1 = offset + (level + 2) := by omega
  rw [hbehind] at hnone
  exact ⟨(Text.startsAt_iff.mp hopening).2, Text.not_infix_of_find? hnone (by omega)⟩

/-- A long bracket is reported as not closed where it is opened. -/
theorem opensUnclosed_of_scan {t : Terminal} {text : Array Char} {offset level : Nat}
    (hscan : t.scan text offset = .unclosed level) : Text.OpensUnclosed text level offset := by
  have ht : t = .longBracket :=
    Decidable.byContradiction fun ht => scan_ne_unclosed ht text offset level hscan
  rw [ht, scan] at hscan
  split at hscan
  · rename_i hfirst
    obtain ⟨signs, hrun⟩ : ∃ signs,
        Text.runEnd text (· == '=') (offset + 1) = offset + 1 + signs :=
      Nat.exists_eq_add_of_le (Text.le_runEnd _)
    have hsigns : offset + 1 + signs - offset - 1 = signs := by omega
    simp only [scanLongBracket, hrun, hsigns] at hscan
    split at hscan
    · rename_i hsecond
      split at hscan
      · cases hscan
      · rename_i hnone
        cases hscan
        exact opensUnclosed_of_find? hfirst hrun hsecond hnone
    · cases hscan
  · cases hscan

end Terminal

/-- Whether a fault is in the text, and where it says. -/
def Fault.Located (text : Array Char) : Fault → Prop
  | mismatch _ offset _ => offset ≤ text.size
  | unclosedBracket level offset _ => Text.OpensUnclosed text level offset

variable {σ : Type}

namespace State

variable {text : Array Char} {st origin : State σ}

/-- Whether the cursor, the last token and the furthest failure are in the text. -/
structure Inside (text : Array Char) (st : State σ) : Prop where
  tokenEnd_le : st.tokenEnd ≤ st.offset
  offset_le : st.offset ≤ text.size
  furthest_le : st.furthest ≤ text.size

theorem inside_initial (text : Array Char) (observed : σ) : (initial observed).Inside text :=
  ⟨Nat.le_refl _, Nat.zero_le _, Nat.zero_le _⟩

namespace Inside

theorem enter (h : st.Inside text) (rule : Rule) : (st.enter rule).Inside text :=
  ⟨h.tokenEnd_le, h.offset_le, h.furthest_le⟩

theorem leave (h : st.Inside text) (rule : Rule) : (st.leave rule).Inside text :=
  ⟨h.tokenEnd_le, h.offset_le, h.furthest_le⟩

theorem enterLookahead (h : st.Inside text) : st.enterLookahead.Inside text :=
  ⟨h.tokenEnd_le, h.offset_le, h.furthest_le⟩

theorem leaveLookahead (h : st.Inside text) : st.leaveLookahead.Inside text :=
  ⟨h.tokenEnd_le, h.offset_le, h.furthest_le⟩

theorem returnTo (horigin : origin.Inside text) (h : st.Inside text) (observer : Observer σ) :
    (st.returnTo observer origin).Inside text :=
  ⟨horigin.tokenEnd_le, horigin.offset_le, h.furthest_le⟩

theorem announce (h : st.Inside text) (observer : Observer σ) (rule : Rule) (begin : Nat) :
    (st.announce observer rule begin).Inside text := by
  rw [State.announce]
  split
  · split <;> exact ⟨h.tokenEnd_le, h.offset_le, h.furthest_le⟩
  · exact h

theorem noteFailure (h : st.Inside text) : st.noteFailure.Inside text := by
  rw [State.noteFailure]
  split
  · exact ⟨h.tokenEnd_le, h.offset_le, h.offset_le⟩
  · exact h

/-- The end of the last token never passes the cursor. -/
theorem advance (h : st.Inside text) {count : Nat} (hcount : st.offset + count ≤ text.size) :
    (st.advance count).Inside text where
  tokenEnd_le := by
    have hle := Nat.le_add_right_of_le (k := count) h.tokenEnd_le
    simp only [State.advance, moveTo]
    split
    · exact Nat.le_refl _
    · exact hle
  offset_le := hcount
  furthest_le := h.furthest_le

/-- A part that must match fails in the text. -/
theorem located_mismatch (h : st.Inside text) (expected : Option String) :
    (st.mismatch expected).Located text := by
  rw [State.mismatch]
  split
  · exact h.furthest_le
  · exact h.offset_le

end Inside

end State

/-- What the end of a match says of places: the match ends in the text, and so does what is
wrong with the text. -/
structure Outcome.Placed (text : Array Char) (outcome : Outcome σ) : Prop where
  inside : outcome.state.Inside text
  located : ∀ fault, outcome.verdict = .stopped (.fault fault) → fault.Located text

namespace Outcome.Placed

variable {text : Array Char} {st : State σ}

theorem matched (h : st.Inside text) : Placed text ⟨.matched, st⟩ := ⟨h, nofun⟩

theorem failed (h : st.Inside text) : Placed text ⟨.failed, st⟩ := ⟨h, nofun⟩

theorem endless (h : st.Inside text) : Placed text ⟨.stopped .endless, st⟩ := ⟨h, nofun⟩

theorem fault (h : st.Inside text) {fault : Fault} (hfault : fault.Located text) :
    Placed text ⟨.stopped (.fault fault), st⟩ := by
  refine ⟨h, ?_⟩
  rintro _ ⟨⟩
  exact hfault

end Outcome.Placed

namespace Matching

variable {text : Array Char} {observer : Observer σ}

/-- Whether a step stays in the text, from any state in it. -/
def Placing (text : Array Char) (step : State σ → Outcome σ) : Prop :=
  ∀ st, st.Inside text → (step st).Placed text

theorem placing_terminal {t : Terminal} (ht : t.Bounded) :
    Placing (σ := σ) text (terminal text t) := by
  intro st hst
  rw [terminal]
  cases hscan : t.scan text st.offset with
  | take count => exact .matched (hst.advance (Terminal.scan_take_le ht hst.offset_le hscan))
  | stay => exact .matched hst
  | miss => exact .failed hst.noteFailure
  | unclosed level => exact .fault hst (Terminal.opensUnclosed_of_scan hscan)

theorem placed_sequence {step : Pattern → State σ → Outcome σ} {items : List Pattern}
    (hstep : ∀ item ∈ items, Placing text (step item)) {origin st : State σ}
    (horigin : origin.Inside text) (hst : st.Inside text) :
    (sequence observer step origin items st).Placed text := by
  induction items generalizing st with
  | nil => exact .matched hst
  | cons item items ih =>
      have hitem := hstep item List.mem_cons_self st hst
      rw [sequence]
      rcases houtcome : step item st with ⟨verdict, next⟩
      rw [houtcome] at hitem
      cases verdict with
      | matched => exact ih (fun item h => hstep item (List.mem_cons_of_mem _ h)) hitem.inside
      | failed => exact .failed (horigin.returnTo hitem.inside observer)
      | stopped stop => exact hitem

theorem placed_choice {step : Pattern → State σ → Outcome σ} {alternatives : List Pattern}
    (hstep : ∀ item ∈ alternatives, Placing text (step item)) {origin st : State σ}
    (horigin : origin.Inside text) (hst : st.Inside text) :
    (choice observer step origin alternatives st).Placed text := by
  induction alternatives generalizing st with
  | nil => exact .failed hst
  | cons alternative alternatives ih =>
      have hfirst := hstep alternative List.mem_cons_self st hst
      rw [choice]
      rcases houtcome : step alternative st with ⟨verdict, next⟩
      rw [houtcome] at hfirst
      cases verdict with
      | matched => exact hfirst
      | failed =>
          exact ih (fun item h => hstep item (List.mem_cons_of_mem _ h))
            (horigin.returnTo hfirst.inside observer)
      | stopped stop => exact hfirst

variable {body stop : State σ → Outcome σ}

theorem placing_looped {spent : Verdict} (hspent : ∀ st : State σ, st.Inside text →
    (⟨spent, st⟩ : Outcome σ).Placed text) (hbody : Placing text body) (rounds : Nat) :
    Placing text (looped observer spent body rounds) := by
  have hround : ∀ {st next verdict}, st.Inside text → body st = ⟨verdict, next⟩ →
      (⟨verdict, next⟩ : Outcome σ).Placed text := fun hst h => h ▸ hbody _ hst
  refine fun st hst => looped_induction
    (P := fun _ st outcome => st.Inside text → outcome.Placed text)
    hspent ?matched ?failed ?stopped rounds st hst
  case matched => exact fun h ih hst => ih (hround hst h).inside
  case failed => exact fun h hst => .matched (hst.returnTo (hround hst h).inside observer)
  case stopped => exact fun h hst => hround hst h

theorem placed_skipped (hstop : Placing text stop) {origin : State σ}
    (horigin : origin.Inside text) (rounds : Nat) :
    Placing text (skipped observer text.size stop origin rounds) := by
  induction rounds with
  | zero => exact fun st hst => .endless hst
  | succ rounds ih =>
      intro st hst
      have hhere := hstop st hst
      rw [skipped]
      rcases houtcome : stop st with ⟨verdict, next⟩
      rw [houtcome] at hhere
      cases verdict with
      | matched => exact hhere
      | failed =>
          dsimp only
          split
          · exact .failed (horigin.returnTo hhere.inside observer).noteFailure
          · rename_i hleft
            exact ih (next.advance 1) (hhere.inside.advance (Nat.not_le.mp hleft))
      | stopped stop => exact hhere

theorem placed_repeatedUntil (hstop : Placing text stop) (hbody : Placing text body)
    {origin : State σ} (horigin : origin.Inside text) (rounds : Nat) :
    Placing text (repeatedUntil observer stop body origin rounds) := by
  induction rounds with
  | zero => exact fun st hst => .endless hst
  | succ rounds ih =>
      intro st hst
      have hhere := hstop st hst
      rw [repeatedUntil]
      rcases houtcome : stop st with ⟨verdict, next⟩
      rw [houtcome] at hhere
      cases verdict with
      | matched => exact hhere
      | failed =>
          have hround := hbody next hhere.inside
          dsimp only
          rcases hafter : body next with ⟨verdict, later⟩
          rw [hafter] at hround
          cases verdict with
          | matched => exact ih later hround.inside
          | failed => exact .failed (horigin.returnTo hround.inside observer)
          | stopped stop => exact hround
      | stopped stop => exact hhere

theorem placing_lookahead (hbody : Placing text body) (negated : Bool) :
    Placing text (lookahead observer negated body) := by
  intro st hst
  have hinner := hbody st.enterLookahead hst.enterLookahead
  rw [lookahead]
  rcases houtcome : body st.enterLookahead with ⟨verdict, last⟩
  rw [houtcome] at hinner
  have hback := hst.returnTo hinner.inside.leaveLookahead observer
  cases verdict with
  | matched => cases negated <;> first | exact .matched hback | exact .failed hback
  | failed => cases negated <;> first | exact .matched hback | exact .failed hback
  | stopped stop => exact ⟨hinner.inside.leaveLookahead, hinner.located⟩

theorem placing_committed (hbody : Placing text body) (description : Unit → String) :
    Placing text (committed body description) := by
  intro st hst
  have hinner := hbody st hst
  rw [committed]
  rcases houtcome : body st with ⟨verdict, last⟩
  rw [houtcome] at hinner
  cases verdict with
  | matched => exact hinner
  | failed => exact .fault hinner.inside (hinner.inside.located_mismatch _)
  | stopped stop => exact hinner

theorem placing_named (hbody : Placing text body) (rule : Rule) :
    Placing text (named observer rule body) := by
  intro st hst
  have hinner := hbody (st.enter rule) (hst.enter rule)
  rw [named]
  rcases houtcome : body (st.enter rule) with ⟨verdict, last⟩
  rw [houtcome] at hinner
  have hlast := hinner.inside.leave rule
  cases verdict with
  | matched => exact .matched (hlast.announce observer rule _)
  | failed => exact .failed hlast
  | stopped stop => exact ⟨hlast, hinner.located⟩

/-- What a sound pattern makes use of is sound. -/
theorem sound_of_uses {g : Grammar} (hg : g.Sound) {p q : Pattern} (hp : p.sound hg.traits = true)
    (huses : Uses (g.setting text observer) p q) : q.sound hg.traits = true := by
  cases huses with
  | part mem => exact Pattern.sound_of_mem_parts hp mem
  | body found => exact hg.sound _ (Grammar.mem_of_rule? found)
  | target _ =>
      rw [Pattern.sound, Bool.and_eq_true] at hp
      exact hp.2

/-- A match of a sound grammar stays in the text, however deep it goes. -/
theorem placing_run {g : Grammar} (hg : g.Sound) (text : Array Char) (observer : Observer σ)
    (depth : Nat) {p : Pattern} (hp : p.sound hg.traits = true) :
    Placing text (run (g.setting text observer) depth p) := by
  induction depth generalizing p with
  | zero => exact fun st hst => ⟨hst, by rintro _ ⟨⟩⟩
  | succ depth ih =>
      intro st hst
      have hparts : ∀ part ∈ p.parts, Placing text (run (g.setting text observer) depth part) :=
        fun part hpart => ih (Pattern.sound_of_mem_parts hp hpart)
      cases p with
      | terminal t => exact placing_terminal (.of_bounded hp) st hst
      | seq items => exact placed_sequence hparts hst hst
      | choice alternatives => exact placed_choice hparts hst hst
      | star site body =>
          rw [run, repeated_eq_looped]
          exact placing_looped (fun _ => .endless) (hparts _ List.mem_cons_self) _ st hst
      | plus site body =>
          have hbody := hparts body List.mem_cons_self
          have hfirst := hbody st hst
          simp only [run]
          rcases houtcome : run (g.setting text observer) depth body st with ⟨verdict, next⟩
          rw [houtcome] at hfirst
          cases verdict with
          | matched =>
              dsimp only
              rw [repeated_eq_looped]
              exact placing_looped (fun _ => .endless) hbody _ next hfirst.inside
          | failed => exact hfirst
          | stopped stop => exact hfirst
      | opt body =>
          rw [run, repeatedAtMost_eq_looped]
          exact placing_looped (fun _ => .matched) (hparts _ List.mem_cons_self) 1 st hst
      | atMost count body =>
          rw [run, repeatedAtMost_eq_looped]
          exact placing_looped (fun _ => .matched) (hparts _ List.mem_cons_self) _ st hst
      | lookahead negated body =>
          exact placing_lookahead (hparts _ List.mem_cons_self) negated st hst
      | skipTo stop => exact placed_skipped (hparts _ List.mem_cons_self) hst _ st hst
      | repeatUntil site stop body =>
          exact placed_repeatedUntil (hparts _ List.mem_cons_self)
            (hparts _ (List.mem_cons_of_mem _ List.mem_cons_self)) hst _ st hst
      | must body =>
          exact placing_committed (hparts _ List.mem_cons_self) (fun _ => body.describe) st hst
      | rule name =>
          simp only [run]
          cases hrule : (g.setting text observer).rule? name with
          | none => exact ⟨hst, by simp⟩
          | some rule =>
              exact placing_named (ih (hg.sound rule (Grammar.mem_of_rule? hrule))) rule st hst
      | ref site name =>
          simp only [run]
          split
          · rename_i hlinked
            exact ih (sound_of_uses hg hp (.target hlinked)) st hst
          · exact ⟨hst, by simp⟩

theorem invariant_inside {g : Grammar} (hg : g.Sound) (text : Array Char) (observer : Observer σ) :
    Invariant (g.setting text observer) (fun p => p.sound hg.traits = true)
      (State.Inside text) where
  uses := sound_of_uses hg
  enter rule h := h.enter rule
  enterLookahead h := h.enterLookahead
  returnTo horigin h _ := horigin.returnTo h observer
  advance h hleft := h.advance hleft
  matched {depth p st last} hp hst hmatched := by
    have hplaced := placing_run hg text observer depth hp st hst
    rw [hmatched] at hplaced
    exact hplaced.inside
  failed {depth p st last} hp hst hfailed := by
    have hplaced := placing_run hg text observer depth hp st hst
    rw [hfailed] at hplaced
    exact hplaced.inside

/-- Every state that a match of a sound grammar goes through is in the text. -/
theorem inside_of_passes {g : Grammar} (hg : g.Sound) {text : Array Char} {observer : Observer σ}
    {depth : Nat} {p : Pattern} (hp : p.sound hg.traits = true) {st s : State σ}
    (hst : st.Inside text) (hpasses : Passes (g.setting text observer) depth p st s) :
    s.Inside text := by
  obtain ⟨below, q, t, hduring, hs⟩ := hpasses
  obtain ⟨hq, ht⟩ := (invariant_inside hg text observer).of_during hduring hp hst
  rcases hs with rfl | rfl
  · exact ht
  · exact (placing_run hg text observer below hq t ht).inside

end Matching

end CartLua
