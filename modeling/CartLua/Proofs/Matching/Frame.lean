import CartLua.Proofs.Matching.Loops
import CartLua.Proofs.Matching.Observers

/-!
# What a match leaves as it was

A match works inside the rules, the anchors and the counters that it finds, and however it
ends, also by an error deep inside, it leaves them as they were.  A failure puts back the
cursor and the end of the last token, a match never moves the cursor back, and a lookahead
puts both back whatever it has seen.
-/

namespace CartLua

variable {σ : Type}

namespace State

/-- Whether two states are inside the same rules and anchors, with the same counters. -/
structure Around (a b : State σ) : Prop where
  ruleStack : b.ruleStack = a.ruleStack
  anchors : b.anchors = a.anchors
  padding : b.padding = a.padding
  quiet : b.quiet = a.quiet
  predicates : b.predicates = a.predicates

namespace Around

variable {a b c : State σ}

theorem refl (a : State σ) : a.Around a := ⟨rfl, rfl, rfl, rfl, rfl⟩

theorem trans (hab : a.Around b) (hbc : b.Around c) : a.Around c where
  ruleStack := hbc.ruleStack.trans hab.ruleStack
  anchors := hbc.anchors.trans hab.anchors
  padding := hbc.padding.trans hab.padding
  quiet := hbc.quiet.trans hab.quiet
  predicates := hbc.predicates.trans hab.predicates

/-- Moving the cursor changes nothing around it. -/
theorem advance (h : a.Around b) (count : Nat) : a.Around (b.advance count) :=
  ⟨h.ruleStack, h.anchors, h.padding, h.quiet, h.predicates⟩

theorem returnTo (h : a.Around b) (observer : Observer σ) (origin : State σ) :
    a.Around (b.returnTo observer origin) :=
  ⟨h.ruleStack, h.anchors, h.padding, h.quiet, h.predicates⟩

theorem noteFailure (h : a.Around b) : a.Around b.noteFailure := by
  rw [State.noteFailure]
  split
  · exact ⟨h.ruleStack, h.anchors, h.padding, h.quiet, h.predicates⟩
  · exact h

/-- Leaving a rule undoes what entering it did. -/
theorem leave {rule : Rule} (h : (a.enter rule).Around b) : a.Around (b.leave rule) := by
  obtain ⟨hstack, hanchors, hpadding, hquiet, hpredicates⟩ := h
  simp only [enter] at hstack hanchors hpadding hquiet hpredicates
  constructor
  · simp [State.leave, hstack]
  · cases hanchor : rule.anchor <;> simp [State.leave, hanchors, hanchor]
  · cases hpad : rule.padding <;> simp [State.leave, hpadding, hpad]
  · cases hsilent : rule.quiet <;> simp [State.leave, hquiet, hsilent]
  · exact hpredicates

theorem leaveLookahead (h : a.enterLookahead.Around b) : a.Around b.leaveLookahead where
  ruleStack := h.ruleStack
  anchors := h.anchors
  padding := h.padding
  quiet := by simp [State.leaveLookahead, h.quiet, enterLookahead]
  predicates := by simp [State.leaveLookahead, h.predicates, enterLookahead]

theorem announce (h : a.Around b) (observer : Observer σ) (rule : Rule) (begin : Nat) :
    a.Around (b.announce observer rule begin) := by
  rw [State.announce]
  split
  · split
    · exact ⟨h.ruleStack, h.anchors, h.padding, h.quiet, h.predicates⟩
    · exact h
  · exact h

end Around

@[simp]
theorem tokenEnd_noteFailure (st : State σ) : st.noteFailure.tokenEnd = st.tokenEnd := by
  rw [noteFailure]
  split <;> rfl

end State

/-- What the end of a match says of everything around it.  A failure leads back to where the
match began. -/
inductive Outcome.Frames (origin : State σ) : Outcome σ → Prop
  | matched {st : State σ} (around : origin.Around st) (forward : origin.offset ≤ st.offset) :
      Frames origin ⟨.matched, st⟩
  | failed {st : State σ} (around : origin.Around st) (offset_eq : st.offset = origin.offset)
      (tokenEnd_eq : st.tokenEnd = origin.tokenEnd) : Frames origin ⟨.failed, st⟩
  | stopped (stop : Stop) {st : State σ} (around : origin.Around st) :
      Frames origin ⟨.stopped stop, st⟩

namespace Outcome.Frames

variable {origin st : State σ} {outcome : Outcome σ}

/-- However a match ends, it ends where everything around is as it was. -/
theorem around (h : outcome.Frames origin) : origin.Around outcome.state := by
  cases h with
  | matched around _ => exact around
  | failed around _ _ => exact around
  | stopped stop around => exact around

/-- Returning to where a failed match began puts its cursor back. -/
theorem back (haround : origin.Around st) (observer : Observer σ) :
    (⟨.failed, st.returnTo observer origin⟩ : Outcome σ).Frames origin :=
  .failed (haround.returnTo observer origin) rfl rfl

/-- Returning to an earlier place may also end in a match. -/
theorem stay (haround : origin.Around st) (observer : Observer σ) :
    (⟨.matched, st.returnTo observer origin⟩ : Outcome σ).Frames origin :=
  .matched (haround.returnTo observer origin) (Nat.le_refl _)

end Outcome.Frames

namespace Matching

/-- Whether a step keeps everything around it, from any state. -/
def Framing (step : State σ → Outcome σ) : Prop := ∀ st, (step st).Frames st

variable {observer : Observer σ}

theorem framing_terminal (text : Array Char) (t : Terminal) :
    Framing (σ := σ) (terminal text t) := by
  intro st
  rw [terminal]
  cases t.scan text st.offset with
  | take count => exact .matched ((State.Around.refl st).advance count) (by simp)
  | stay => exact .matched (.refl st) (Nat.le_refl _)
  | miss => exact .failed (State.Around.refl st).noteFailure (by simp) (by simp)
  | unclosed level => exact .stopped _ (.refl st)

theorem frames_sequence {step : Pattern → State σ → Outcome σ} (hstep : ∀ p, Framing (step p))
    {origin : State σ} (items : List Pattern) {st : State σ} (haround : origin.Around st)
    (hforward : origin.offset ≤ st.offset) :
    (sequence observer step origin items st).Frames origin := by
  induction items generalizing st with
  | nil => exact .matched haround hforward
  | cons item items ih =>
      have hitem := hstep item st
      rw [sequence]
      generalize step item st = x at hitem ⊢
      cases hitem with
      | matched around forward => exact ih (haround.trans around) (Nat.le_trans hforward forward)
      | failed around _ _ => exact .back (haround.trans around) observer
      | stopped stop around => exact .stopped stop (haround.trans around)

theorem frames_choice {step : Pattern → State σ → Outcome σ} (hstep : ∀ p, Framing (step p))
    {origin : State σ} (alternatives : List Pattern) {st : State σ} (haround : origin.Around st)
    (hoffset : st.offset = origin.offset) (htokenEnd : st.tokenEnd = origin.tokenEnd) :
    (choice observer step origin alternatives st).Frames origin := by
  induction alternatives generalizing st with
  | nil => exact .failed haround hoffset htokenEnd
  | cons alternative alternatives ih =>
      have hfirst := hstep alternative st
      rw [choice]
      generalize step alternative st = x at hfirst ⊢
      cases hfirst with
      | matched around forward => exact .matched (haround.trans around) (hoffset ▸ forward)
      | failed around _ _ => exact ih ((haround.trans around).returnTo observer origin) rfl rfl
      | stopped stop around => exact .stopped stop (haround.trans around)

variable {body stop : State σ → Outcome σ}

theorem frames_looped {spent : Verdict} (hspent : spent ≠ .failed) (hbody : Framing body)
    (rounds : Nat) {origin st : State σ} (haround : origin.Around st)
    (hforward : origin.offset ≤ st.offset) :
    (looped observer spent body rounds st).Frames origin := by
  refine looped_induction
    (P := fun _ st outcome => origin.Around st → origin.offset ≤ st.offset → outcome.Frames origin)
    ?spent ?matched ?failed ?stopped rounds st haround hforward
  case spent =>
    intro st haround hforward
    cases spent with
    | matched => exact .matched haround hforward
    | failed => exact absurd rfl hspent
    | stopped stop => exact .stopped stop haround
  case matched =>
    intro _ st _ _ hround ih haround hforward
    have hframes := hbody st
    rw [hround] at hframes
    cases hframes with
    | matched around forward => exact ih (haround.trans around) (Nat.le_trans hforward forward)
  case failed =>
    intro _ st _ hround haround hforward
    have hframes := hbody st
    rw [hround] at hframes
    exact .matched ((haround.trans hframes.around).returnTo observer st) hforward
  case stopped =>
    intro _ st _ stop hround haround _
    have hframes := hbody st
    rw [hround] at hframes
    exact .stopped stop (haround.trans hframes.around)

theorem frames_skipped (size : Nat) (hstop : Framing stop) (rounds : Nat) {origin st : State σ}
    (haround : origin.Around st) (hforward : origin.offset ≤ st.offset) :
    (skipped observer size stop origin rounds st).Frames origin := by
  induction rounds generalizing st with
  | zero => exact .stopped _ haround
  | succ rounds ih =>
      have hhere := hstop st
      rw [skipped]
      generalize stop st = x at hhere ⊢
      cases hhere with
      | matched around forward =>
          exact .matched (haround.trans around) (Nat.le_trans hforward forward)
      | failed around offset_eq _ =>
          have hthere := haround.trans around
          dsimp only
          split
          · exact .failed (hthere.returnTo observer origin).noteFailure (by simp)
              (State.tokenEnd_noteFailure _)
          · refine ih (hthere.advance 1) ?_
            rw [State.offset_advance, offset_eq]
            exact Nat.le_succ_of_le hforward
      | stopped stop around => exact .stopped stop (haround.trans around)

theorem frames_repeatedUntil (hstop : Framing stop) (hbody : Framing body) (rounds : Nat)
    {origin st : State σ} (haround : origin.Around st) (hforward : origin.offset ≤ st.offset) :
    (repeatedUntil observer stop body origin rounds st).Frames origin := by
  induction rounds generalizing st with
  | zero => exact .stopped _ haround
  | succ rounds ih =>
      have hhere := hstop st
      rw [repeatedUntil]
      generalize stop st = x at hhere ⊢
      cases hhere with
      | matched around forward =>
          exact .matched (haround.trans around) (Nat.le_trans hforward forward)
      | @failed next around offset_eq _ =>
          have hround := hbody next
          have hthere := haround.trans around
          dsimp only
          generalize body next = y at hround ⊢
          cases hround with
          | matched around forward => exact ih (hthere.trans around) (by omega)
          | failed around _ _ => exact .back (hthere.trans around) observer
          | stopped stop around => exact .stopped stop (hthere.trans around)
      | stopped stop around => exact .stopped stop (haround.trans around)

theorem framing_lookahead (hbody : Framing body) (negated : Bool) :
    Framing (lookahead observer negated body) := by
  intro st
  have hinner := hbody st.enterLookahead
  rw [lookahead]
  generalize body st.enterLookahead = x at hinner ⊢
  cases hinner with
  | matched around _ =>
      cases negated with
      | false => exact .stay around.leaveLookahead observer
      | true => exact .back around.leaveLookahead observer
  | failed around _ _ =>
      cases negated with
      | false => exact .back around.leaveLookahead observer
      | true => exact .stay around.leaveLookahead observer
  | stopped stop around => exact .stopped stop around.leaveLookahead

theorem framing_committed (hbody : Framing body) (description : Unit → String) :
    Framing (committed body description) := by
  intro st
  have hinner := hbody st
  rw [committed]
  generalize body st = x at hinner ⊢
  cases hinner with
  | matched around forward => exact .matched around forward
  | failed around _ _ => exact .stopped _ around
  | stopped stop around => exact .stopped stop around

theorem framing_named (hbody : Framing body) (rule : Rule) :
    Framing (named observer rule body) := by
  intro st
  have hinner := hbody (st.enter rule)
  rw [named]
  generalize body (st.enter rule) = x at hinner ⊢
  cases hinner with
  | matched around forward =>
      exact .matched (around.leave.announce observer rule st.offset) (by simpa using forward)
  | failed around offset_eq tokenEnd_eq => exact .failed around.leave offset_eq tokenEnd_eq
  | stopped stop around => exact .stopped stop around.leave

/-- Every pattern keeps everything around its match, at whatever depth. -/
theorem framing_run (setting : Setting σ) (depth : Nat) (p : Pattern) :
    Framing (run setting depth p) := by
  induction depth generalizing p with
  | zero => exact fun st => .stopped _ (.refl st)
  | succ depth ih =>
      intro st
      cases p with
      | terminal t => exact framing_terminal setting.text t st
      | seq items => exact frames_sequence ih items (.refl st) (Nat.le_refl _)
      | choice alternatives => exact frames_choice ih alternatives (.refl st) rfl rfl
      | star site body =>
          rw [run, repeated_eq_looped]
          exact frames_looped (by simp) (ih body) _ (.refl st) (Nat.le_refl _)
      | plus site body =>
          have hfirst := ih body st
          simp only [run]
          generalize run setting depth body st = x at hfirst ⊢
          cases hfirst with
          | matched around forward =>
              dsimp only
              rw [repeated_eq_looped]
              exact frames_looped (by simp) (ih body) _ around forward
          | failed around offset_eq tokenEnd_eq => exact .failed around offset_eq tokenEnd_eq
          | stopped stop around => exact .stopped stop around
      | opt body =>
          rw [run, repeatedAtMost_eq_looped]
          exact frames_looped (by simp) (ih body) 1 (.refl st) (Nat.le_refl _)
      | atMost count body =>
          rw [run, repeatedAtMost_eq_looped]
          exact frames_looped (by simp) (ih body) count.toNat (.refl st) (Nat.le_refl _)
      | lookahead negated body => exact framing_lookahead (ih body) negated st
      | skipTo stop => exact frames_skipped _ (ih stop) _ (.refl st) (Nat.le_refl _)
      | repeatUntil site stop body =>
          exact frames_repeatedUntil (ih stop) (ih body) _ (.refl st) (Nat.le_refl _)
      | must body => exact framing_committed (ih body) (fun _ => body.describe) st
      | rule name =>
          simp only [run]
          cases setting.rule? name with
          | some rule => exact framing_named (ih rule.body) rule st
          | none => exact .stopped _ (.refl st)
      | ref site name =>
          simp only [run]
          split
          · exact ih (.rule name) st
          · exact .stopped _ (.refl st)

/-- A lookahead that comes to an end leaves the cursor and the end of the last token where
they were. -/
theorem lookahead_stays (setting : Setting σ) (depth : Nat) (negated : Bool) (body : Pattern)
    (st : State σ)
    (hends : ∀ stop, (run setting depth (.lookahead negated body) st).verdict ≠ .stopped stop) :
    (run setting depth (.lookahead negated body) st).state.offset = st.offset ∧
      (run setting depth (.lookahead negated body) st).state.tokenEnd = st.tokenEnd := by
  cases depth with
  | zero => exact absurd rfl (hends .tooDeep)
  | succ depth =>
      simp only [run, lookahead] at hends ⊢
      generalize run setting depth body st.enterLookahead = x at hends ⊢
      rcases x with ⟨verdict, last⟩
      cases verdict with
      | matched => exact ⟨rfl, rfl⟩
      | failed => exact ⟨rfl, rfl⟩
      | stopped stop => exact absurd rfl (hends stop)

end Matching

/-- A match that fails leaves the cursor and the end of the last token where they were, one
that succeeds does not lead back, and a lookahead that comes to an end does neither.  The
rules and anchors around a match and the counters are the same after it, however it ends. -/
theorem matches_keep_frame (g : Grammar) (text : Array Char) (observer : Observer σ) (depth : Nat)
    (p : Pattern) (st : State σ) :
    ((Matching.run (g.setting text observer) depth p st).verdict = .failed →
      (Matching.run (g.setting text observer) depth p st).state.offset = st.offset ∧
        (Matching.run (g.setting text observer) depth p st).state.tokenEnd = st.tokenEnd) ∧
    ((Matching.run (g.setting text observer) depth p st).verdict = .matched →
      st.offset ≤ (Matching.run (g.setting text observer) depth p st).state.offset) ∧
    (∀ negated body, p = .lookahead negated body →
      (∀ stop, (Matching.run (g.setting text observer) depth p st).verdict ≠ .stopped stop) →
        (Matching.run (g.setting text observer) depth p st).state.offset = st.offset ∧
          (Matching.run (g.setting text observer) depth p st).state.tokenEnd = st.tokenEnd) ∧
    st.Around (Matching.run (g.setting text observer) depth p st).state := by
  have hframes := Matching.framing_run (g.setting text observer) depth p st
  refine ⟨?_, ?_, ?_, hframes.around⟩
  · intro hfailed
    generalize Matching.run (g.setting text observer) depth p st = x at hframes hfailed ⊢
    cases hframes with
    | failed _ offset_eq tokenEnd_eq => exact ⟨offset_eq, tokenEnd_eq⟩
    | matched _ _ => cases hfailed
    | stopped _ _ => cases hfailed
  · intro hmatched
    generalize Matching.run (g.setting text observer) depth p st = x at hframes hmatched ⊢
    cases hframes with
    | matched _ forward => exact forward
    | failed _ _ _ => cases hmatched
    | stopped _ _ => cases hmatched
  · rintro negated body rfl hends
    exact Matching.lookahead_stays (g.setting text observer) depth negated body st hends

end CartLua
