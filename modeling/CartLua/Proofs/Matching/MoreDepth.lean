import CartLua.Proofs.Matching.Loops

/-!
# More depth changes nothing

The limit of active patterns decides whether a match is stopped for depth, and nothing else.
A match that is not stopped for depth ends the same way, and in the same state, under every
higher limit.
-/

namespace CartLua

variable {σ : Type}

/-- Whether an outcome stays what it is when more depth is allowed: it was stopped for depth,
or the other outcome equals it. -/
inductive Outcome.Persists : Outcome σ → Outcome σ → Prop
  | tooDeep (st : State σ) (y : Outcome σ) : Persists ⟨.stopped .tooDeep, st⟩ y
  | same (x : Outcome σ) : Persists x x

theorem Outcome.Persists.eq {x y : Outcome σ} (h : x.Persists y)
    (hx : x.verdict ≠ .stopped .tooDeep) : y = x := by
  cases h with
  | tooDeep st y => exact absurd rfl hx
  | same x => rfl

namespace Matching

/-- Whether the outcomes of one step persist in those of another. -/
def Deepens (f g : State σ → Outcome σ) : Prop := ∀ st, (f st).Persists (g st)

variable {observer : Observer σ} {f g stop stop' : State σ → Outcome σ}

theorem persists_sequence {step step' : Pattern → State σ → Outcome σ}
    (hstep : ∀ p, Deepens (step p) (step' p)) (origin : State σ) (items : List Pattern) :
    Deepens (sequence observer step origin items) (sequence observer step' origin items) := by
  induction items with
  | nil => exact fun st => .same _
  | cons item items ih =>
      intro st
      have hitem := hstep item st
      rw [sequence, sequence]
      generalize step item st = x at hitem ⊢
      generalize step' item st = y at hitem ⊢
      cases hitem with
      | tooDeep last y => exact .tooDeep last _
      | same x =>
          rcases x with ⟨verdict, next⟩
          cases verdict with
          | matched => exact ih next
          | failed => exact .same _
          | stopped stop => exact .same _

theorem persists_choice {step step' : Pattern → State σ → Outcome σ}
    (hstep : ∀ p, Deepens (step p) (step' p)) (origin : State σ) (alternatives : List Pattern) :
    Deepens (choice observer step origin alternatives)
      (choice observer step' origin alternatives) := by
  induction alternatives with
  | nil => exact fun st => .same _
  | cons alternative alternatives ih =>
      intro st
      have hfirst := hstep alternative st
      rw [choice, choice]
      generalize step alternative st = x at hfirst ⊢
      generalize step' alternative st = y at hfirst ⊢
      cases hfirst with
      | tooDeep last y => exact .tooDeep last _
      | same x =>
          rcases x with ⟨verdict, next⟩
          cases verdict with
          | matched => exact .same _
          | failed => exact ih _
          | stopped stop => exact .same _

theorem persists_looped (spent : Verdict) (hbody : Deepens f g) (rounds : Nat) :
    Deepens (looped observer spent f rounds) (looped observer spent g rounds) := by
  have hround : ∀ {st next verdict}, f st = ⟨verdict, next⟩ →
      Outcome.Persists ⟨verdict, next⟩ (g st) := fun h => h ▸ hbody _
  refine looped_induction
    (P := fun rounds st outcome => outcome.Persists (looped observer spent g rounds st))
    (fun _ => .same _) ?matched ?failed ?stopped rounds
  case matched =>
    intro _ _ _ _ h ih
    rw [looped, (hround h).eq (by simp)]
    exact ih
  case failed =>
    intro _ _ _ h
    rw [looped, (hround h).eq (by simp)]
    exact .same _
  case stopped =>
    intro _ _ next stop h
    by_cases hdeep : stop = .tooDeep
    · exact hdeep ▸ .tooDeep next _
    · rw [looped, (hround h).eq (by simpa using hdeep)]
      exact .same _

theorem persists_skipped (size : Nat) (hstop : Deepens stop stop') (origin : State σ)
    (rounds : Nat) :
    Deepens (skipped observer size stop origin rounds)
      (skipped observer size stop' origin rounds) := by
  induction rounds with
  | zero => exact fun st => .same _
  | succ rounds ih =>
      intro st
      have hhere := hstop st
      rw [skipped, skipped]
      generalize stop st = x at hhere ⊢
      generalize stop' st = y at hhere ⊢
      cases hhere with
      | tooDeep last y => exact .tooDeep last _
      | same x =>
          rcases x with ⟨verdict, next⟩
          cases verdict with
          | matched => exact .same _
          | failed =>
              dsimp only
              split
              · exact .same _
              · exact ih _
          | stopped stop => exact .same _

theorem persists_repeatedUntil (hstop : Deepens stop stop') (hbody : Deepens f g)
    (origin : State σ) (rounds : Nat) :
    Deepens (repeatedUntil observer stop f origin rounds)
      (repeatedUntil observer stop' g origin rounds) := by
  induction rounds with
  | zero => exact fun st => .same _
  | succ rounds ih =>
      intro st
      have hhere := hstop st
      rw [repeatedUntil, repeatedUntil]
      generalize stop st = x at hhere ⊢
      generalize stop' st = y at hhere ⊢
      cases hhere with
      | tooDeep last y => exact .tooDeep last _
      | same x =>
          rcases x with ⟨verdict, next⟩
          cases verdict with
          | matched => exact .same _
          | failed =>
              have hround := hbody next
              dsimp only
              generalize f next = x at hround ⊢
              generalize g next = y at hround ⊢
              cases hround with
              | tooDeep last y => exact .tooDeep last _
              | same x =>
                  rcases x with ⟨verdict, later⟩
                  cases verdict with
                  | matched => exact ih later
                  | failed => exact .same _
                  | stopped stop => exact .same _
          | stopped stop => exact .same _

theorem persists_lookahead (hbody : Deepens f g) (negated : Bool) :
    Deepens (lookahead observer negated f) (lookahead observer negated g) := by
  intro st
  have hinner := hbody st.enterLookahead
  rw [lookahead, lookahead]
  generalize f st.enterLookahead = x at hinner ⊢
  generalize g st.enterLookahead = y at hinner ⊢
  cases hinner with
  | tooDeep last y => exact .tooDeep _ _
  | same x => exact .same _

theorem persists_committed (hbody : Deepens f g) (description : Unit → String) :
    Deepens (committed f description) (committed g description) := by
  intro st
  have hinner := hbody st
  rw [committed, committed]
  generalize f st = x at hinner ⊢
  generalize g st = y at hinner ⊢
  cases hinner with
  | tooDeep last y => exact .tooDeep last _
  | same x => exact .same _

theorem persists_named (hbody : Deepens f g) (rule : Rule) :
    Deepens (named observer rule f) (named observer rule g) := by
  intro st
  have hinner := hbody (st.enter rule)
  rw [named, named]
  generalize f (st.enter rule) = x at hinner ⊢
  generalize g (st.enter rule) = y at hinner ⊢
  cases hinner with
  | tooDeep last y => exact .tooDeep _ _
  | same x => exact .same _

/-- One more level changes nothing about a match that is not stopped for depth. -/
theorem persists_run (setting : Setting σ) (depth : Nat) (p : Pattern) :
    Deepens (run setting depth p) (run setting (depth + 1) p) := by
  induction depth generalizing p with
  | zero => exact fun st => .tooDeep st _
  | succ depth ih =>
      intro st
      cases p with
      | terminal t => exact .same _
      | seq items => exact persists_sequence ih st items st
      | choice alternatives => exact persists_choice ih st alternatives st
      | star site body =>
          rw [run, run, repeated_eq_looped, repeated_eq_looped]
          exact persists_looped _ (ih body) _ st
      | plus site body =>
          have hfirst := ih body st
          rw [run, run]
          generalize run setting depth body st = x at hfirst ⊢
          generalize run setting (depth + 1) body st = y at hfirst ⊢
          cases hfirst with
          | tooDeep last y => exact .tooDeep last _
          | same x =>
              rcases x with ⟨verdict, next⟩
              cases verdict with
              | matched =>
                  dsimp only
                  rw [repeated_eq_looped, repeated_eq_looped]
                  exact persists_looped _ (ih body) _ next
              | failed => exact .same _
              | stopped stop => exact .same _
      | opt body =>
          rw [run, run, repeatedAtMost_eq_looped, repeatedAtMost_eq_looped]
          exact persists_looped _ (ih body) 1 st
      | atMost count body =>
          rw [run, run, repeatedAtMost_eq_looped, repeatedAtMost_eq_looped]
          exact persists_looped _ (ih body) count.toNat st
      | lookahead negated body => exact persists_lookahead (ih body) negated st
      | skipTo stop => exact persists_skipped _ (ih stop) st _ st
      | repeatUntil site stop body => exact persists_repeatedUntil (ih stop) (ih body) st _ st
      | must body => exact persists_committed (ih body) (fun _ => body.describe) st
      | rule name =>
          rw [run, run]
          cases setting.rule? name with
          | none => exact .same _
          | some rule => exact persists_named (ih rule.body) rule st
      | ref site name =>
          rw [run, run]
          split
          · exact ih (.rule name) st
          · exact .same _

/-- A match that is not stopped for depth ends the same way under every higher limit. -/
theorem run_eq_of_le {setting : Setting σ} {depth more : Nat} {p : Pattern} {st : State σ}
    (hends : (run setting depth p st).verdict ≠ .stopped .tooDeep) (hle : depth ≤ more) :
    run setting more p st = run setting depth p st := by
  induction hle with
  | refl => rfl
  | @step more _ ih =>
      have hstep := persists_run setting more p st
      rw [ih] at hstep
      exact hstep.eq hends

end Matching

end CartLua
