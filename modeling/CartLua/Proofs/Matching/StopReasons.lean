import CartLua.Proofs.Derivation.Verdicts
import CartLua.Proofs.Matching.Submatches

/-!
# Why a match stops

A match stops for reasons that lie in the patterns which are tried on the way: a committed part
that fails, a long bracket that is never closed, or the depth that is left.  A kind of reasons to
which all of these belong is kept by every operator, so that a rule in whose reach there is no
long bracket stops, if it does, because a committed part has failed.
-/

namespace CartLua

variable {σ : Type}

/-- Whether a match that stops does so for a reason of this kind. -/
def Outcome.StopsFor (Reason : Stop → Prop) (outcome : Outcome σ) : Prop :=
  ∀ stop, outcome.verdict = .stopped stop → Reason stop

namespace Outcome.StopsFor

variable {Reason : Stop → Prop}

theorem matched (st : State σ) : StopsFor Reason ⟨.matched, st⟩ := by
  rintro _ ⟨⟩

theorem failed (st : State σ) : StopsFor Reason ⟨.failed, st⟩ := by
  rintro _ ⟨⟩

theorem stopped {stop : Stop} (h : Reason stop) (st : State σ) :
    StopsFor Reason ⟨.stopped stop, st⟩ := by
  rintro _ ⟨⟩
  exact h

end Outcome.StopsFor

namespace Matching

/-- What is asked of a kind of reasons, and of the patterns that are matched. -/
structure Reasons (setting : Setting σ) (Fit : Pattern → Prop) (Reason : Stop → Prop) :
    Prop where
  uses : ∀ {p q : Pattern}, Fit p → Uses setting p q → Fit q
  terminal : ∀ {t : Terminal}, Fit (.terminal t) → ∀ st : State σ,
    (Matching.terminal setting.text t st).StopsFor Reason
  mismatch : ∀ (st : State σ) (description : Option String),
    Reason (.fault (st.mismatch description))
  tooDeep : Reason .tooDeep
  endless : Reason .endless
  undefinedRule : ∀ name, Reason (.undefinedRule name)
  unlinked : ∀ name, Reason (.unlinked name)

namespace Reasons

variable {setting : Setting σ} {Fit : Pattern → Prop} {Reason : Stop → Prop}
  {origin st : State σ} {items : List Pattern} {step : Pattern → State σ → Outcome σ}
  {body stop : State σ → Outcome σ} {observer : Observer σ}

theorem sequence (hstep : ∀ item ∈ items, ∀ st, (step item st).StopsFor Reason) :
    (Matching.sequence observer step origin items st).StopsFor Reason := by
  induction items generalizing st with
  | nil => exact .matched st
  | cons item items ih =>
      obtain ⟨hitem, hitems⟩ := List.forall_mem_cons.mp hstep
      have hfirst := hitem st
      rw [Matching.sequence]
      rcases houtcome : step item st with ⟨verdict, next⟩
      rw [houtcome] at hfirst
      cases verdict with
      | matched => exact ih hitems
      | failed => exact .failed _
      | stopped stop => exact hfirst

theorem choice (hstep : ∀ item ∈ items, ∀ st, (step item st).StopsFor Reason) :
    (Matching.choice observer step origin items st).StopsFor Reason := by
  induction items generalizing st with
  | nil => exact .failed st
  | cons item items ih =>
      obtain ⟨hitem, hitems⟩ := List.forall_mem_cons.mp hstep
      have hfirst := hitem st
      rw [Matching.choice]
      rcases houtcome : step item st with ⟨verdict, next⟩
      rw [houtcome] at hfirst
      cases verdict with
      | matched => exact .matched _
      | failed => exact ih hitems
      | stopped stop => exact hfirst

theorem looped {spent : Verdict}
    (hspent : ∀ st : State σ, (⟨spent, st⟩ : Outcome σ).StopsFor Reason)
    (hbody : ∀ st, (body st).StopsFor Reason) (rounds : Nat) (st : State σ) :
    (Matching.looped observer spent body rounds st).StopsFor Reason :=
  looped_induction (P := fun _ _ outcome => outcome.StopsFor Reason)
    hspent (fun _ ih => ih) (fun _ => .matched _) (fun h => h ▸ hbody _) rounds st

theorem skipped (hendless : Reason .endless) (hstop : ∀ st, (stop st).StopsFor Reason)
    (size rounds : Nat) :
    (Matching.skipped observer size stop origin rounds st).StopsFor Reason := by
  induction rounds generalizing st with
  | zero => exact .stopped hendless st
  | succ rounds ih =>
      have hhere := hstop st
      rw [Matching.skipped]
      rcases hnext : stop st with ⟨verdict, next⟩
      rw [hnext] at hhere
      cases verdict with
      | matched => exact .matched _
      | failed =>
          dsimp only
          split
          · exact .failed _
          · exact ih
      | stopped stop => exact hhere

theorem repeatedUntil (hendless : Reason .endless) (hstop : ∀ st, (stop st).StopsFor Reason)
    (hbody : ∀ st, (body st).StopsFor Reason) (rounds : Nat) :
    (Matching.repeatedUntil observer stop body origin rounds st).StopsFor Reason := by
  induction rounds generalizing st with
  | zero => exact .stopped hendless st
  | succ rounds ih =>
      have hhere := hstop st
      rw [Matching.repeatedUntil]
      rcases hnext : stop st with ⟨verdict, next⟩
      rw [hnext] at hhere
      cases verdict with
      | matched => exact .matched _
      | failed =>
          have hround := hbody next
          dsimp only
          rcases hlater : body next with ⟨verdict, later⟩
          rw [hlater] at hround
          cases verdict with
          | matched => exact ih
          | failed => exact .failed _
          | stopped stop => exact hround
      | stopped stop => exact hhere

theorem lookahead {negated : Bool} (hbody : ∀ st, (body st).StopsFor Reason) (st : State σ) :
    (Matching.lookahead observer negated body st).StopsFor Reason := by
  have hinner := hbody st.enterLookahead
  rw [Matching.lookahead]
  rcases hnext : body st.enterLookahead with ⟨verdict, next⟩
  rw [hnext] at hinner
  cases verdict with
  | matched => cases negated <;> first | exact .matched _ | exact .failed _
  | failed => cases negated <;> first | exact .matched _ | exact .failed _
  | stopped stop => exact hinner

theorem committed (hmismatch : ∀ (st : State σ) description,
    Reason (.fault (st.mismatch description)))
    (hbody : ∀ st, (body st).StopsFor Reason) (description : Unit → String) (st : State σ) :
    (Matching.committed body description st).StopsFor Reason := by
  have hinner := hbody st
  rw [Matching.committed]
  rcases hnext : body st with ⟨verdict, next⟩
  rw [hnext] at hinner
  cases verdict with
  | matched => exact .matched _
  | failed => exact .stopped (hmismatch next _) next
  | stopped stop => exact hinner

theorem named {rule : Rule} (hbody : ∀ st, (body st).StopsFor Reason) (st : State σ) :
    (Matching.named observer rule body st).StopsFor Reason := by
  have hinner := hbody (st.enter rule)
  rw [Matching.named]
  rcases hnext : body (st.enter rule) with ⟨verdict, next⟩
  rw [hnext] at hinner
  cases verdict with
  | matched => exact .matched _
  | failed => exact .failed _
  | stopped stop => exact hinner

/-- Every match of a pattern that fits stops for a reason of the kind. -/
theorem run (hreasons : Reasons setting Fit Reason) (depth : Nat) {p : Pattern} (hp : Fit p)
    (st : State σ) : (Matching.run setting depth p st).StopsFor Reason := by
  induction depth generalizing p st with
  | zero => exact .stopped hreasons.tooDeep st
  | succ depth ih =>
      have hpart : ∀ part ∈ p.parts, ∀ st, (Matching.run setting depth part st).StopsFor Reason :=
        fun part hmem => ih (hreasons.uses hp (.part hmem))
      cases p with
      | terminal t => exact hreasons.terminal hp st
      | seq items => exact sequence hpart
      | choice items => exact choice hpart
      | star _ body =>
          rw [Matching.run, repeated_eq_looped]
          exact looped (.stopped hreasons.endless) (hpart body List.mem_cons_self) _ st
      | plus _ body =>
          have hbody := hpart body List.mem_cons_self
          have hround := hbody st
          rw [Matching.run]
          rcases hnext : Matching.run setting depth body st with ⟨verdict, next⟩
          rw [hnext] at hround
          cases verdict with
          | matched =>
              dsimp only
              rw [repeated_eq_looped]
              exact looped (.stopped hreasons.endless) hbody _ next
          | failed => exact .failed _
          | stopped stop => exact hround
      | opt body =>
          rw [Matching.run, repeatedAtMost_eq_looped]
          exact looped .matched (hpart body List.mem_cons_self) 1 st
      | atMost count body =>
          rw [Matching.run, repeatedAtMost_eq_looped]
          exact looped .matched (hpart body List.mem_cons_self) count.toNat st
      | lookahead negated body => exact lookahead (hpart body List.mem_cons_self) st
      | skipTo stop => exact skipped hreasons.endless (hpart stop List.mem_cons_self) _ _
      | repeatUntil _ stop body =>
          exact repeatedUntil hreasons.endless (hpart stop List.mem_cons_self)
            (hpart body (List.mem_cons_of_mem _ List.mem_cons_self)) _
      | must body => exact committed hreasons.mismatch (hpart body List.mem_cons_self) _ st
      | rule name =>
          rw [Matching.run]
          split
          · rename_i rule hfound
            exact named (ih (hreasons.uses hp (.body hfound))) st
          · exact .stopped (hreasons.undefinedRule name) st
      | ref site name =>
          rw [Matching.run]
          split
          · rename_i hlinked
            exact ih (hreasons.uses hp (.target hlinked)) st
          · exact .stopped (hreasons.unlinked name) st

end Reasons

end Matching

/-- Where an error is derived, the outcome is one. -/
theorem Answers.stopped {g : Grammar} {text : Array Char} {n : Nat} {p : Pattern}
    {origin : State σ} {outcome : Outcome σ}
    (h : Answers g text n p origin.offset origin.offset outcome)
    (hderives : DerivesIn g n p (Text.rest text origin.offset) .broken) :
    ∃ fault, outcome.verdict = .stopped (.fault fault) := by
  obtain ⟨verdict, last⟩ := outcome
  cases verdict with
  | matched =>
      obtain ⟨-, parts, hparts⟩ := h
      cases hparts.eq_of hderives
  | failed => cases h.2.eq_of hderives
  | stopped stop =>
      rcases h with ⟨-, hnone⟩ | ⟨⟨fault, rfl⟩, -⟩
      · exact absurd hderives (hnone _)
      · exact ⟨fault, rfl⟩

/-! ## Rules without long brackets -/

/-- Whether a match does not stop at a long bracket that is never closed. -/
def Stop.isUnbracketed : Stop → Bool
  | .fault (.unclosedBracket ..) => false
  | _ => true

namespace Pattern

variable (dialect : Dialect)

/-- Whether there is no long bracket in the reach of a pattern, whose uses of rules go this
deep. -/
def bracketless : Nat → Pattern → Bool
  | 0, _ => false
  | _ + 1, terminal t => t != .longBracket
  | n + 1, seq items => items.all fun item => item.bracketless n
  | n + 1, choice items => items.all fun item => item.bracketless n
  | n + 1, star _ body => body.bracketless n
  | n + 1, plus _ body => body.bracketless n
  | n + 1, opt body => body.bracketless n
  | n + 1, atMost _ body => body.bracketless n
  | n + 1, lookahead _ body => body.bracketless n
  | n + 1, skipTo stop => stop.bracketless n
  | n + 1, repeatUntil _ stop body => stop.bracketless n && body.bracketless n
  | n + 1, must body => body.bracketless n
  | n + 1, rule name =>
      ((dialect.rules.find? fun rule => rule.name == name).map fun rule =>
        rule.body.bracketless n).getD true
  | n + 1, ref _ name => (rule name).bracketless n

variable {dialect} {n : Nat} {p q : Pattern} {text : Array Char} {observer : Observer σ}

/-- What a pattern without long brackets makes use of is without them as well. -/
theorem bracketless_of_uses (hp : p.bracketless dialect (n + 1) = true)
    (h : Matching.Uses (dialect.grammar.setting text observer) p q) :
    q.bracketless dialect n = true := by
  cases h with
  | part hmem =>
      cases p with
      | seq items => exact List.all_eq_true.mp hp q hmem
      | choice items => exact List.all_eq_true.mp hp q hmem
      | repeatUntil _ stop body =>
          obtain ⟨hstop, hbody⟩ := Bool.and_eq_true_iff.mp hp
          rcases List.mem_cons.mp hmem with rfl | hmem
          · exact hstop
          · exact List.mem_singleton.mp hmem ▸ hbody
      | _ => first
        | exact List.mem_singleton.mp hmem ▸ hp
        | cases hmem
  | @body name rule found =>
      have hfound : dialect.rules.find? (fun rule => rule.name == name) = some rule := by
        rw [← congrFun (Dialect.rule?_eq dialect) name]
        exact found
      rwa [bracketless, hfound] at hp
  | target _ => exact hp

/-- A match of a pattern without long brackets does not stop at one. -/
theorem stopsFor_of_bracketless (hp : p.bracketless dialect n = true) (depth : Nat)
    (st : State σ) :
    (Matching.run (dialect.grammar.setting text observer) depth p st).StopsFor
      (·.isUnbracketed = true) := by
  have hreasons : Matching.Reasons (dialect.grammar.setting text observer)
      (fun p => ∃ n, p.bracketless dialect n = true) (·.isUnbracketed = true) := {
    uses := by
      rintro p q ⟨n, hp⟩ huses
      cases n with
      | zero => cases hp
      | succ n => exact ⟨n, bracketless_of_uses hp huses⟩
    terminal := by
      rintro t ⟨n, ht⟩ st stop hstop
      cases n with
      | zero => cases ht
      | succ n =>
          rw [Matching.terminal] at hstop
          split at hstop
          · cases hstop
          · cases hstop
          · cases hstop
          · rename_i level hscan
            exact absurd hscan (Terminal.scan_ne_unclosed (by simpa [bracketless] using ht) _ _ _)
    mismatch := fun st description => by
      rw [State.mismatch]
      split <;> rfl
    tooDeep := rfl
    endless := rfl
    undefinedRule := fun _ => rfl
    unlinked := fun _ => rfl }
  exact hreasons.run depth ⟨n, hp⟩ st

end Pattern

/-- A fault that is not an unclosed bracket is a syntax error. -/
theorem ParseError.code_ofFault {source : Source} {keywords : List String} {fault : Fault}
    (h : (Stop.fault fault).isUnbracketed = true) :
    (ofFault source keywords fault).code = "P001" := by
  cases fault with
  | mismatch => rfl
  | unclosedBracket => cases h

end CartLua
