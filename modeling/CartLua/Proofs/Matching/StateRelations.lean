import CartLua.Proofs.Matching.Submatches

/-!
# Relations that the moves of the matcher keep

Whatever pattern is matched, the state changes by a few moves only: the cursor is moved on or
back, a failure is noted, a rule or a lookahead is entered and left again, and the observer is
told.  A relation that each of these moves keeps relates where a match begins and where it
ends.

Such a relation is that nothing around the cursor changes and that, inside padding, the last
token ends where it did.
-/

namespace CartLua

variable {σ : Type}

namespace Matching

/-- What is asked of a relation between earlier and later states, and of the patterns that are
matched between them. -/
structure Moves (setting : Setting σ) (Fit : Pattern → Prop) (R : State σ → State σ → Prop) :
    Prop where
  uses : ∀ {p q : Pattern}, Fit p → Uses setting p q → Fit q
  refl : ∀ st, R st st
  trans : ∀ {a b c}, R a b → R b c → R a c
  terminal : ∀ {t : Terminal}, Fit (.terminal t) → ∀ st,
    R st (Matching.terminal setting.text t st).state
  pass : ∀ {st : State σ}, st.offset < setting.text.size → R st (st.advance 1)
  noteFailure : ∀ st : State σ, R st st.noteFailure
  returnTo : ∀ {origin st}, R origin st → R origin (st.returnTo setting.observer origin)
  leave : ∀ {st last : State σ} {rule : Rule}, R (st.enter rule) last → R st (last.leave rule)
  leaveLookahead : ∀ {st last : State σ}, R st.enterLookahead last → R st last.leaveLookahead
  announce : ∀ {name : String} {rule : Rule}, Fit (.rule name) →
    setting.rule? name = some rule → ∀ (st : State σ) (begin : Nat),
      R st (st.announce setting.observer rule begin)

namespace Moves

variable {setting : Setting σ} {Fit : Pattern → Prop} {R : State σ → State σ → Prop}
  {origin st : State σ} {items : List Pattern} {step : Pattern → State σ → Outcome σ}
  {body stop : State σ → Outcome σ}

theorem sequence (hmoves : Moves setting Fit R)
    (hstep : ∀ item ∈ items, ∀ st, R st (step item st).state) (hst : R origin st) :
    R origin (Matching.sequence setting.observer step origin items st).state := by
  induction items generalizing st with
  | nil => exact hst
  | cons item items ih =>
      obtain ⟨hitem, hitems⟩ := List.forall_mem_cons.mp hstep
      have hnext := hmoves.trans hst (hitem st)
      rw [Matching.sequence]
      rcases houtcome : step item st with ⟨verdict, next⟩
      rw [houtcome] at hnext
      cases verdict with
      | matched => exact ih hitems hnext
      | failed => exact hmoves.returnTo hnext
      | stopped stop => exact hnext

theorem choice (hmoves : Moves setting Fit R)
    (hstep : ∀ item ∈ items, ∀ st, R st (step item st).state) (hst : R origin st) :
    R origin (Matching.choice setting.observer step origin items st).state := by
  induction items generalizing st with
  | nil => exact hst
  | cons item items ih =>
      obtain ⟨hitem, hitems⟩ := List.forall_mem_cons.mp hstep
      have hnext := hmoves.trans hst (hitem st)
      rw [Matching.choice]
      rcases houtcome : step item st with ⟨verdict, next⟩
      rw [houtcome] at hnext
      cases verdict with
      | matched => exact hnext
      | failed => exact ih hitems (hmoves.returnTo hnext)
      | stopped stop => exact hnext

theorem looped {spent : Verdict} (hmoves : Moves setting Fit R)
    (hbody : ∀ st, R st (body st).state) (rounds : Nat) (hst : R origin st) :
    R origin (Matching.looped setting.observer spent body rounds st).state := by
  have hround : ∀ {st next verdict}, body st = ⟨verdict, next⟩ → R st next := by
    intro st next verdict h
    have hnext := hbody st
    rwa [h] at hnext
  refine looped_induction (P := fun _ st outcome => R origin st → R origin outcome.state)
    (fun _ => id) ?matched ?failed ?stopped rounds st hst
  case matched => exact fun h ih hst => ih (hmoves.trans hst (hround h))
  case failed => exact fun h hst => hmoves.trans hst (hmoves.returnTo (hround h))
  case stopped => exact fun h hst => hmoves.trans hst (hround h)

theorem skipped (hmoves : Moves setting Fit R) (hstop : ∀ st, R st (stop st).state)
    (rounds : Nat) (hst : R origin st) :
    R origin
      (Matching.skipped setting.observer setting.text.size stop origin rounds st).state := by
  induction rounds generalizing st with
  | zero => exact hst
  | succ rounds ih =>
      have hhere := hmoves.trans hst (hstop st)
      rw [Matching.skipped]
      rcases hnext : stop st with ⟨verdict, next⟩
      rw [hnext] at hhere
      cases verdict with
      | matched => exact hhere
      | failed =>
          dsimp only
          split
          · exact hmoves.trans (hmoves.returnTo hhere) (hmoves.noteFailure _)
          · rename_i hleft
            exact ih (hmoves.trans hhere (hmoves.pass (Nat.lt_of_not_le hleft)))
      | stopped stop => exact hhere

theorem repeatedUntil (hmoves : Moves setting Fit R) (hstop : ∀ st, R st (stop st).state)
    (hbody : ∀ st, R st (body st).state) (rounds : Nat) (hst : R origin st) :
    R origin (Matching.repeatedUntil setting.observer stop body origin rounds st).state := by
  induction rounds generalizing st with
  | zero => exact hst
  | succ rounds ih =>
      have hhere := hmoves.trans hst (hstop st)
      rw [Matching.repeatedUntil]
      rcases hnext : stop st with ⟨verdict, next⟩
      rw [hnext] at hhere
      cases verdict with
      | matched => exact hhere
      | failed =>
          have hround := hmoves.trans hhere (hbody next)
          dsimp only
          rcases hlater : body next with ⟨verdict, later⟩
          rw [hlater] at hround
          cases verdict with
          | matched => exact ih hround
          | failed => exact hmoves.returnTo hround
          | stopped stop => exact hround
      | stopped stop => exact hhere

theorem lookahead (hmoves : Moves setting Fit R) (hbody : ∀ st, R st (body st).state)
    (negated : Bool) (st : State σ) :
    R st (Matching.lookahead setting.observer negated body st).state := by
  have hinner := hbody st.enterLookahead
  rw [Matching.lookahead]
  rcases hlast : body st.enterLookahead with ⟨verdict, last⟩
  rw [hlast] at hinner
  cases verdict with
  | matched => exact hmoves.returnTo (hmoves.leaveLookahead hinner)
  | failed => exact hmoves.returnTo (hmoves.leaveLookahead hinner)
  | stopped stop => exact hmoves.leaveLookahead hinner

theorem committed (hbody : ∀ st, R st (body st).state)
    (description : Unit → String) (st : State σ) :
    R st (Matching.committed body description st).state := by
  have hinner := hbody st
  rw [Matching.committed]
  rcases hlast : body st with ⟨verdict, last⟩
  rw [hlast] at hinner
  cases verdict <;> exact hinner

theorem named (hmoves : Moves setting Fit R) {name : String} {rule : Rule} (hfit : Fit (.rule name))
    (hfound : setting.rule? name = some rule) (hbody : ∀ st, R st (body st).state) (st : State σ) :
    R st (Matching.named setting.observer rule body st).state := by
  have hinner := hmoves.leave (hbody (st.enter rule))
  rw [Matching.named]
  rcases hlast : body (st.enter rule) with ⟨verdict, last⟩
  rw [hlast] at hinner
  cases verdict with
  | matched => exact hmoves.trans hinner (hmoves.announce hfit hfound _ _)
  | failed => exact hinner
  | stopped stop => exact hinner

/-- However a match ends, the relation holds between its beginning and its end. -/
theorem run (hmoves : Moves setting Fit R) (depth : Nat) {p : Pattern} (hp : Fit p) (st : State σ) :
    R st (Matching.run setting depth p st).state := by
  induction depth generalizing p st with
  | zero => exact hmoves.refl st
  | succ depth ih =>
      have hparts : ∀ q ∈ p.parts, ∀ st, R st (Matching.run setting depth q st).state :=
        fun q hq => ih (hmoves.uses hp (.part hq))
      cases p with
      | terminal t => exact hmoves.terminal hp st
      | seq items => exact hmoves.sequence hparts (hmoves.refl st)
      | choice items => exact hmoves.choice hparts (hmoves.refl st)
      | star site body =>
          rw [Matching.run, repeated_eq_looped]
          exact hmoves.looped (hparts body List.mem_cons_self) _ (hmoves.refl st)
      | plus site body =>
          have hbody := hparts body List.mem_cons_self
          have hfirst := hbody st
          simp only [Matching.run]
          rcases hnext : Matching.run setting depth body st with ⟨verdict, next⟩
          rw [hnext] at hfirst
          cases verdict with
          | matched =>
              dsimp only
              rw [repeated_eq_looped]
              exact hmoves.looped hbody _ hfirst
          | failed => exact hfirst
          | stopped stop => exact hfirst
      | opt body =>
          rw [Matching.run, repeatedAtMost_eq_looped]
          exact hmoves.looped (hparts body List.mem_cons_self) 1 (hmoves.refl st)
      | atMost count body =>
          rw [Matching.run, repeatedAtMost_eq_looped]
          exact hmoves.looped (hparts body List.mem_cons_self) count.toNat (hmoves.refl st)
      | lookahead negated body => exact hmoves.lookahead (hparts body List.mem_cons_self) negated st
      | skipTo stop => exact hmoves.skipped (hparts stop List.mem_cons_self) _ (hmoves.refl st)
      | repeatUntil site stop body =>
          have hbody := hparts body (List.mem_cons_of_mem _ List.mem_cons_self)
          exact hmoves.repeatedUntil (hparts stop List.mem_cons_self) hbody _ (hmoves.refl st)
      | must body =>
          exact committed (hparts body List.mem_cons_self) (fun _ => body.describe) st
      | rule name =>
          simp only [Matching.run]
          cases hfound : setting.rule? name with
          | some rule => exact hmoves.named hp hfound (ih (hmoves.uses hp (.body hfound))) st
          | none => exact hmoves.refl st
      | ref site name =>
          simp only [Matching.run]
          split
          · rename_i hlinked
            exact ih (hmoves.uses hp (.target hlinked)) st
          · exact hmoves.refl st

end Moves

end Matching

/-! ## Inside padding -/

namespace State

@[simp]
theorem tokenEnd_announce (st : State σ) (observer : Observer σ) (rule : Rule) (begin : Nat) :
    (st.announce observer rule begin).tokenEnd = st.tokenEnd := by
  rw [announce]
  split
  · split <;> rfl
  · rfl

/-- Whether nothing around the cursor has changed, and inside padding no token has ended. -/
structure Rests (a b : State σ) : Prop extends a.Around b where
  tokenEnd : 0 < a.padding → b.tokenEnd = a.tokenEnd

namespace Rests

variable {a b c : State σ}

theorem refl (a : State σ) : a.Rests a := ⟨.refl a, fun _ => rfl⟩

theorem trans (hab : a.Rests b) (hbc : b.Rests c) : a.Rests c := by
  refine ⟨hab.toAround.trans hbc.toAround, fun hpadding => ?_⟩
  rw [hbc.tokenEnd (hab.padding ▸ hpadding), hab.tokenEnd hpadding]

theorem leave {rule : Rule} (h : (a.enter rule).Rests b) : a.Rests (b.leave rule) := by
  refine ⟨h.toAround.leave, fun hpadding => h.tokenEnd ?_⟩
  simp only [State.enter]
  split <;> omega

theorem advance (a : State σ) (count : Nat) : a.Rests (a.advance count) := by
  refine ⟨(Around.refl a).advance count, fun hpadding => ?_⟩
  simp only [State.advance, moveTo, if_neg (Int.ne_of_gt hpadding)]

theorem noteFailure (a : State σ) : a.Rests a.noteFailure :=
  ⟨(Around.refl a).noteFailure, fun _ => tokenEnd_noteFailure a⟩

end Rests

/-- Every move of the matcher keeps what is around it, and inside padding the last token. -/
theorem moves_rests (setting : Setting σ) :
    Matching.Moves setting (fun _ => True) State.Rests where
  uses _ _ := trivial
  refl := .refl
  trans := .trans
  terminal {t} _ st := by
    rw [Matching.terminal]
    cases t.scan setting.text st.offset with
    | take count => exact .advance st count
    | stay => exact .refl st
    | miss => exact .noteFailure st
    | unclosed level => exact .refl st
  pass {st} _ := .advance st 1
  noteFailure := .noteFailure
  returnTo h := ⟨h.toAround.returnTo setting.observer _, fun _ => rfl⟩
  leave := .leave
  leaveLookahead h := ⟨h.toAround.leaveLookahead, h.tokenEnd⟩
  announce {_ rule} _ _ a begin := ⟨(Around.refl a).announce setting.observer rule begin,
    fun _ => tokenEnd_announce a setting.observer rule begin⟩

end State

end CartLua
