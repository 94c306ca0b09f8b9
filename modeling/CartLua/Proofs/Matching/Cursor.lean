import CartLua.Proofs.Grammar.SelfCheck
import CartLua.Proofs.Grammar.Sound
import CartLua.Proofs.Matching.Observers

/-!
# What matches do to the cursor

A match never leads the cursor back, a failure leads it back to where it was, and a
pattern that stays in place while it matches is one of those that the self-check
says can match nothing.
-/

namespace CartLua

variable {σ : Type}

namespace Terminal

variable {t : Terminal} {text : Array Char} {offset count : Nat}

/-- A terminal that takes no character can match nothing. -/
theorem nullable_of_take_zero (htake : t.scan text offset = .take 0) : t.nullable = true := by
  by_contra hnullable
  exact count_ne_zero_of_take (takesSome_of_nullable (by simpa using hnullable)) htake rfl

end Terminal

/-- What the end of a match says of the cursor.  A match never leads back, and what it
moves over begins in the text; it stays in place only if it may.  A failure leads back to
`origin`. -/
inductive Outcome.Moves (text : Array Char) (origin start : Nat) (mayStay : Bool) :
    Outcome σ → Prop
  | matched {st : State σ} (forward : start ≤ st.offset)
      (inside : start < st.offset → start < text.size)
      (stays : st.offset = start → mayStay = true) :
      Moves text origin start mayStay ⟨.matched, st⟩
  | failed {st : State σ} (back : st.offset = origin) :
      Moves text origin start mayStay ⟨.failed, st⟩
  | stopped (stop : Stop) (st : State σ) : Moves text origin start mayStay ⟨.stopped stop, st⟩

namespace Outcome.Moves

variable {text : Array Char} {origin origin' start middle : Nat} {mayStay mayStay' : Bool}
  {outcome : Outcome σ}

/-- A match that goes on where another one has ended. -/
theorem after (h : outcome.Moves text origin middle mayStay') (forward : start ≤ middle)
    (inside : start < middle → start < text.size)
    (stays : middle = start → mayStay' = true → mayStay = true) :
    outcome.Moves text origin start mayStay := by
  cases h with
  | matched forward' inside' stays' =>
      refine .matched (by omega) (fun hlt => ?_) fun heq => stays (by omega) (stays' (by omega))
      by_cases hmiddle : start < middle
      · exact inside hmiddle
      · have := inside' (by omega)
        omega
  | failed back => exact .failed back
  | stopped stop st => exact .stopped stop st

theorem mono (h : outcome.Moves text origin start mayStay')
    (hstay : mayStay' = true → mayStay = true) : outcome.Moves text origin start mayStay :=
  h.after (Nat.le_refl _) (fun hlt => absurd hlt (Nat.lt_irrefl _)) fun _ => hstay

end Outcome.Moves

namespace Matching

/-- Whether a step moves the cursor as a match does, from any state. -/
def Moving (text : Array Char) (mayStay : Bool) (step : State σ → Outcome σ) : Prop :=
  ∀ st, (step st).Moves text st.offset st.offset mayStay

variable {text : Array Char} {observer : Observer σ} {mayStay : Bool}

theorem moving_terminal (t : Terminal) : Moving (σ := σ) text t.nullable (terminal text t) := by
  intro st
  rw [terminal]
  cases hscan : t.scan text st.offset with
  | take count =>
      refine .matched (by simp) (fun hlt => ?_) fun heq => ?_
      · rw [State.offset_advance] at hlt
        exact Terminal.lt_size_of_take hscan (by omega)
      · rw [State.offset_advance] at heq
        have hcount : count = 0 := by omega
        subst hcount
        exact Terminal.nullable_of_take_zero hscan
  | stay =>
      exact .matched (Nat.le_refl _) (fun hlt => absurd hlt (Nat.lt_irrefl _)) fun _ =>
        Terminal.nullable_of_stay hscan
  | miss => exact .failed (by simp)
  | unclosed level => exact .stopped _ _

theorem moves_sequence {known : List String} {step : Pattern → State σ → Outcome σ}
    (hstep : ∀ p, Moving text (p.nullable known) (step p)) (origin : State σ) (items : List Pattern)
    (st : State σ) :
    (sequence observer step origin items st).Moves text origin.offset st.offset
      (Pattern.allNullable known items) := by
  induction items generalizing st with
  | nil =>
      exact .matched (Nat.le_refl _) (fun hlt => absurd hlt (Nat.lt_irrefl _)) fun _ => rfl
  | cons item items ih =>
      have hitem := hstep item st
      rw [sequence]
      generalize step item st = x at hitem ⊢
      cases hitem with
      | matched forward inside stays =>
          refine (ih _).after forward inside fun heq hitems => ?_
          rw [Pattern.allNullable, stays heq, hitems]
          rfl
      | failed back => exact .failed rfl
      | stopped stop st => exact .stopped stop st

theorem moves_choice {known : List String} {step : Pattern → State σ → Outcome σ}
    (hstep : ∀ p, Moving text (p.nullable known) (step p)) (origin : State σ)
    (alternatives : List Pattern) {st : State σ} (hst : st.offset = origin.offset) :
    (choice observer step origin alternatives st).Moves text origin.offset origin.offset
      (Pattern.anyNullable known alternatives) := by
  induction alternatives generalizing st with
  | nil => exact .failed hst
  | cons alternative alternatives ih =>
      have hfirst := hstep alternative st
      rw [choice]
      rw [hst] at hfirst
      generalize step alternative st = x at hfirst ⊢
      cases hfirst with
      | matched forward inside stays =>
          refine .matched forward inside fun heq => ?_
          rw [Pattern.anyNullable, stays heq, Bool.true_or]
      | @failed st' back =>
          have hlater := ih (show (st'.returnTo observer origin).offset = origin.offset from rfl)
          exact hlater.mono fun hstay => by rw [Pattern.anyNullable, hstay, Bool.or_true]
      | stopped stop st => exact .stopped stop st

variable {body stop : State σ → Outcome σ} {mayStay' : Bool}

/-- A loop does not fail, so it may be given any place to lead back to. -/
theorem moves_looped {spent : Verdict} (hspent : spent ≠ .failed)
    (hbody : Moving text mayStay body) (origin rounds : Nat) (st : State σ) :
    (looped observer spent body rounds st).Moves text origin st.offset true := by
  have hround : ∀ {st next verdict}, body st = ⟨verdict, next⟩ →
      (⟨verdict, next⟩ : Outcome σ).Moves text st.offset st.offset mayStay := fun h => h ▸ hbody _
  have hstays : ∀ {st next : State σ}, st.offset = next.offset →
      Outcome.Moves text origin st.offset true ⟨.matched, next⟩ := fun heq =>
    heq ▸ .matched (Nat.le_refl _) (fun hlt => absurd hlt (Nat.lt_irrefl _)) fun _ => rfl
  refine looped_induction (P := fun _ st outcome => outcome.Moves text origin st.offset true)
    ?spent ?matched (fun _ => hstays rfl) (fun _ => .stopped _ _) rounds st
  case spent =>
    intro st
    cases spent with
    | matched => exact hstays rfl
    | failed => exact absurd rfl hspent
    | stopped stop => exact .stopped stop st
  case matched =>
    intro _ _ _ _ h ih
    cases hround h with
    | matched forward inside _ => exact ih.after forward inside fun _ _ => rfl

theorem moves_skipped (hstop : Moving text mayStay stop) (origin : State σ) (rounds : Nat)
    (st : State σ) :
    (skipped observer text.size stop origin rounds st).Moves text origin.offset st.offset
      mayStay := by
  induction rounds generalizing st with
  | zero => exact .stopped _ _
  | succ rounds ih =>
      have hhere := hstop st
      rw [skipped]
      generalize stop st = x at hhere ⊢
      cases hhere with
      | matched forward inside stays => exact .matched forward inside stays
      | @failed st' back =>
          dsimp only
          split
          · exact .failed (by simp)
          · rename_i hleft
            refine (ih _).after ?_ (fun _ => ?_) fun heq => ?_
            · simp [back]
            · omega
            · rw [State.offset_advance] at heq
              omega
      | stopped stop st => exact .stopped stop st

theorem moves_repeatedUntil (hstop : Moving text mayStay stop) (hbody : Moving text mayStay' body)
    (origin : State σ) (rounds : Nat) (st : State σ) :
    (repeatedUntil observer stop body origin rounds st).Moves text origin.offset st.offset
      mayStay := by
  induction rounds generalizing st with
  | zero => exact .stopped _ _
  | succ rounds ih =>
      have hhere := hstop st
      rw [repeatedUntil]
      generalize stop st = x at hhere ⊢
      cases hhere with
      | matched forward inside stays => exact .matched forward inside stays
      | @failed st' back =>
          have hround := hbody st'
          dsimp only
          rw [back] at hround
          generalize body st' = y at hround ⊢
          cases hround with
          | matched forward inside _ => exact (ih _).after forward inside fun _ h => h
          | failed _ => exact .failed rfl
          | stopped stop st => exact .stopped stop st
      | stopped stop st => exact .stopped stop st

theorem moving_lookahead (hbody : Moving text mayStay body) (negated : Bool) :
    Moving text true (lookahead observer negated body) := by
  intro st
  have hinner := hbody st.enterLookahead
  rw [lookahead]
  generalize body st.enterLookahead = x at hinner ⊢
  have here : ∀ st' : State σ, Outcome.Moves text st.offset st.offset true
      ⟨.matched, st'.returnTo observer st⟩ := fun st' =>
    .matched (Nat.le_refl _) (fun hlt => absurd hlt (Nat.lt_irrefl _)) fun _ => rfl
  cases hinner with
  | matched _ _ _ =>
      cases negated with
      | false => exact here _
      | true => exact .failed rfl
  | failed _ =>
      cases negated with
      | false => exact .failed rfl
      | true => exact here _
  | stopped stop st => exact .stopped stop _

theorem moving_committed (hbody : Moving text mayStay body) (description : Unit → String) :
    Moving text mayStay (committed body description) := by
  intro st
  have hinner := hbody st
  rw [committed]
  generalize body st = x at hinner ⊢
  cases hinner with
  | matched forward inside stays => exact .matched forward inside stays
  | failed _ => exact .stopped _ _
  | stopped stop st => exact .stopped stop st

theorem moving_named (hbody : Moving text mayStay body) (rule : Rule) :
    Moving text mayStay (named observer rule body) := by
  intro st
  have hinner := hbody (st.enter rule)
  rw [named]
  generalize body (st.enter rule) = x at hinner ⊢
  cases hinner with
  | matched forward inside stays =>
      exact .matched (by simpa using forward) (by simpa using inside) (by simpa using stays)
  | failed back => exact .failed (by simpa using back)
  | stopped stop st => exact .stopped stop _

/-- Whether the known rules include every rule whose body can match nothing. -/
def Closed (rule? : String → Option Rule) (known : List String) : Prop :=
  ∀ name rule, rule? name = some rule → rule.body.nullable known = true →
    known.contains name = true

theorem closed_nullableRules (g : Grammar) : Closed g.rule? g.nullableRules := by
  intro name rule hrule hbody
  rw [← Grammar.name_of_rule? hrule]
  exact List.contains_iff_mem.mpr (g.mem_nullableRules (Grammar.mem_of_rule? hrule) hbody)

/-- A pattern that cannot match nothing takes something whenever it matches, at whatever
depth. -/
theorem moving_run (setting : Setting σ) {known : List String}
    (hclosed : Closed setting.rule? known) (depth : Nat) (p : Pattern) :
    Moving setting.text (p.nullable known) (run setting depth p) := by
  induction depth generalizing p with
  | zero => exact fun st => .stopped _ _
  | succ depth ih =>
      cases p with
      | terminal t => exact moving_terminal t
      | seq items => exact fun st => moves_sequence ih st items st
      | choice alternatives => exact fun st => moves_choice ih st alternatives rfl
      | star site body =>
          intro st
          rw [run, repeated_eq_looped]
          exact moves_looped (by simp) (ih body) _ _ st
      | plus site body =>
          intro st
          have hfirst := ih body st
          simp only [run]
          generalize run setting depth body st = x at hfirst ⊢
          cases hfirst with
          | matched forward inside stays =>
              dsimp only
              rw [repeated_eq_looped]
              exact (moves_looped (by simp) (ih body) _ _ _).after forward inside
                fun heq _ => stays heq
          | failed back => exact .failed back
          | stopped stop st => exact .stopped stop st
      | opt body =>
          intro st
          rw [run, repeatedAtMost_eq_looped]
          exact moves_looped (by simp) (ih body) _ _ st
      | atMost count body =>
          intro st
          rw [run, repeatedAtMost_eq_looped]
          exact moves_looped (by simp) (ih body) _ _ st
      | lookahead negated body => exact moving_lookahead (ih body) negated
      | skipTo stop => exact fun st => moves_skipped (ih stop) st _ st
      | repeatUntil site stop body =>
          exact fun st => moves_repeatedUntil (ih stop) (ih body) st _ st
      | must body => exact moving_committed (ih body) fun _ => body.describe
      | rule name =>
          intro st
          simp only [run]
          cases hrule : setting.rule? name with
          | none => exact .stopped _ _
          | some rule => exact (moving_named (ih rule.body) rule st).mono (hclosed name rule hrule)
      | ref site name =>
          intro st
          simp only [run]
          split
          · exact ih (.rule name) st
          · exact .stopped _ _

end Matching

/-- `Matching.moving_run` for a match of a grammar. -/
theorem Grammar.moving_run {g : Grammar} {known : List String}
    (hclosed : Matching.Closed g.rule? known) (text : Array Char) (observer : Observer σ)
    (depth : Nat) (p : Pattern) :
    Matching.Moving text (p.nullable known) (Matching.run (g.setting text observer) depth p) :=
  Matching.moving_run (g.setting text observer) hclosed depth p

end CartLua
