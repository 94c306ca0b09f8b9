import CartLua.Matching.Run

/-!
# Loops of the matcher

The loop that goes on as long as its body matches and the one with a count of rounds differ only in
how they end when the rounds are used up.  Both are one loop with that verdict for a parameter, and
what its rounds hand on to each other is proved of both at once.
-/

namespace CartLua.Matching

variable {σ : Type} {observer : Observer σ} {spent : Verdict} {body : State σ → Outcome σ}

/-- Repeat until the body fails, which ends the loop with a match, or until the rounds are used up,
which ends it with the verdict `spent`. -/
def looped (observer : Observer σ) (spent : Verdict) (body : State σ → Outcome σ) :
    (rounds : Nat) → State σ → Outcome σ
  | 0, st => ⟨spent, st⟩
  | rounds + 1, origin =>
      match body origin with
      | ⟨.matched, st⟩ => looped observer spent body rounds st
      | ⟨.failed, st⟩ => ⟨.matched, st.returnTo observer origin⟩
      | stopped => stopped

theorem repeated_eq_looped (observer : Observer σ) (body : State σ → Outcome σ) (rounds : Nat)
    (st : State σ) :
    repeated observer body rounds st = looped observer (.stopped .endless) body rounds st := by
  induction rounds generalizing st with
  | zero => rfl
  | succ rounds ih =>
      rw [repeated, looped]
      rcases body st with ⟨verdict, next⟩
      cases verdict with
      | matched => exact ih next
      | failed => rfl
      | stopped stop => rfl

theorem repeatedAtMost_eq_looped (observer : Observer σ) (body : State σ → Outcome σ) (count : Nat)
    (st : State σ) :
    repeatedAtMost observer body count st = looped observer .matched body count st := by
  induction count generalizing st with
  | zero => rfl
  | succ count ih =>
      rw [repeatedAtMost, looped]
      rcases body st with ⟨verdict, next⟩
      cases verdict with
      | matched => exact ih next
      | failed => rfl
      | stopped stop => rfl

/-- What holds when the rounds are used up, is handed back by a round that matches, and holds when
a round fails or stops, holds of every loop. -/
theorem looped_induction {P : Nat → State σ → Outcome σ → Prop}
    (hspent : ∀ st, P 0 st ⟨spent, st⟩)
    (hmatched : ∀ {rounds : Nat} {st next : State σ} {outcome : Outcome σ},
      body st = ⟨.matched, next⟩ → P rounds next outcome → P (rounds + 1) st outcome)
    (hfailed : ∀ {rounds : Nat} {st next : State σ},
      body st = ⟨.failed, next⟩ → P (rounds + 1) st ⟨.matched, next.returnTo observer st⟩)
    (hstopped : ∀ {rounds : Nat} {st next : State σ} {stop : Stop},
      body st = ⟨.stopped stop, next⟩ → P (rounds + 1) st ⟨.stopped stop, next⟩)
    (rounds : Nat) (st : State σ) : P rounds st (looped observer spent body rounds st) := by
  induction rounds generalizing st with
  | zero => exact hspent st
  | succ rounds ih =>
      rw [looped]
      rcases hround : body st with ⟨verdict, next⟩
      cases verdict with
      | matched => exact hmatched hround (ih next)
      | failed => exact hfailed hround
      | stopped stop => exact hstopped hround

end CartLua.Matching
