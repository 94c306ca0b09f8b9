import CartLua.Proofs.Matching.Frame

/-!
# The matches inside a match

While a pattern is matched, other patterns are tried from other states: its parts one level
below, their parts below those, and so on.  These are all the matches that happen on the
way, and the states in which they begin and end are the states that the match goes through.

An invariant of states that each pattern passes on from where it begins to where it ends, and
that the moves of the matcher between two tries respect, holds wherever a match begins.
-/

namespace CartLua.Matching

variable {σ : Type}

/-- While the first pattern is matched from the first state, the second one is tried from the
second state, one level below. -/
inductive Tries (setting : Setting σ) (depth : Nat) :
    Pattern → State σ → Pattern → State σ → Prop
  | seqHere (item : Pattern) (items : List Pattern) (st : State σ) :
      Tries setting depth (.seq (item :: items)) st item st
  | seqLater {item q : Pattern} {items : List Pattern} {st next s : State σ}
      (first : run setting depth item st = ⟨.matched, next⟩)
      (others : Tries setting depth (.seq items) next q s) :
      Tries setting depth (.seq (item :: items)) st q s
  | choiceHere (item : Pattern) (items : List Pattern) (st : State σ) :
      Tries setting depth (.choice (item :: items)) st item st
  | choiceLater {item q : Pattern} {items : List Pattern} {st next s : State σ}
      (first : run setting depth item st = ⟨.failed, next⟩)
      (others : Tries setting depth (.choice items) (next.returnTo setting.observer st) q s) :
      Tries setting depth (.choice (item :: items)) st q s
  | starHere (site : Site) (body : Pattern) (st : State σ) :
      Tries setting depth (.star site body) st body st
  | starLater {site : Site} {body q : Pattern} {st next s : State σ}
      (round : run setting depth body st = ⟨.matched, next⟩)
      (others : Tries setting depth (.star site body) next q s) :
      Tries setting depth (.star site body) st q s
  | plusHere (site : Site) (body : Pattern) (st : State σ) :
      Tries setting depth (.plus site body) st body st
  | plusLater {site : Site} {body q : Pattern} {st next s : State σ}
      (round : run setting depth body st = ⟨.matched, next⟩)
      (others : Tries setting depth (.star site body) next q s) :
      Tries setting depth (.plus site body) st q s
  | opt (body : Pattern) (st : State σ) : Tries setting depth (.opt body) st body st
  | atMostHere {count : Int} (body : Pattern) (st : State σ) (left : count.toNat ≠ 0) :
      Tries setting depth (.atMost count body) st body st
  | atMostLater {count : Int} {body q : Pattern} {st next s : State σ} (left : count.toNat ≠ 0)
      (round : run setting depth body st = ⟨.matched, next⟩)
      (others : Tries setting depth (.atMost (count - 1) body) next q s) :
      Tries setting depth (.atMost count body) st q s
  | lookahead (negated : Bool) (body : Pattern) (st : State σ) :
      Tries setting depth (.lookahead negated body) st body st.enterLookahead
  | skipHere (stop : Pattern) (st : State σ) : Tries setting depth (.skipTo stop) st stop st
  | skipLater {stop q : Pattern} {st next s : State σ}
      (here : run setting depth stop st = ⟨.failed, next⟩)
      (left : next.offset < setting.text.size)
      (others : Tries setting depth (.skipTo stop) (next.advance 1) q s) :
      Tries setting depth (.skipTo stop) st q s
  | untilStop (site : Site) (stop body : Pattern) (st : State σ) :
      Tries setting depth (.repeatUntil site stop body) st stop st
  | untilBody {site : Site} {stop body : Pattern} {st next : State σ}
      (here : run setting depth stop st = ⟨.failed, next⟩) :
      Tries setting depth (.repeatUntil site stop body) st body next
  | untilLater {site : Site} {stop body q : Pattern} {st next later s : State σ}
      (here : run setting depth stop st = ⟨.failed, next⟩)
      (round : run setting depth body next = ⟨.matched, later⟩)
      (others : Tries setting depth (.repeatUntil site stop body) later q s) :
      Tries setting depth (.repeatUntil site stop body) st q s
  | must (body : Pattern) (st : State σ) : Tries setting depth (.must body) st body st
  | rule {name : String} {rule : Rule} (st : State σ) (found : setting.rule? name = some rule) :
      Tries setting depth (.rule name) st rule.body (st.enter rule)
  | ref {site : Site} {name : String} (st : State σ)
      (linked : setting.isLinked site name = true) :
      Tries setting depth (.ref site name) st (.rule name) st

/-- While the first pattern is matched from the first state, the second one is matched from the
second state.  The numbers say how many levels are allowed to each of the two matches. -/
inductive During (setting : Setting σ) :
    Nat → Pattern → State σ → Nat → Pattern → State σ → Prop
  | itself (depth : Nat) (p : Pattern) (st : State σ) : During setting depth p st depth p st
  | inside {depth below : Nat} {p q r : Pattern} {st s t : State σ}
      (tries : Tries setting depth p st q s) (inner : During setting depth q s below r t) :
      During setting (depth + 1) p st below r t

/-- The states that a match goes through: where a match on the way begins or ends. -/
def Passes (setting : Setting σ) (depth : Nat) (p : Pattern) (st s : State σ) : Prop :=
  ∃ below q t, During setting depth p st below q t ∧ (s = t ∨ s = (run setting below q t).state)

/-- The patterns that a pattern makes use of: its parts, or what a name stands for. -/
inductive Uses (setting : Setting σ) : Pattern → Pattern → Prop
  | part {p q : Pattern} (mem : q ∈ p.parts) : Uses setting p q
  | body {name : String} {rule : Rule} (found : setting.rule? name = some rule) :
      Uses setting (.rule name) rule.body
  | target {site : Site} {name : String} (linked : setting.isLinked site name = true) :
      Uses setting (.ref site name) (.rule name)

/-- A property of patterns and an invariant of states that the matcher keeps when it matches
such patterns.  It moves the cursor back only inside the rules and anchors where it was. -/
structure Invariant (setting : Setting σ) (Fit : Pattern → Prop) (Inv : State σ → Prop) :
    Prop where
  uses : ∀ {p q : Pattern}, Fit p → Uses setting p q → Fit q
  enter : ∀ {st : State σ} (rule : Rule), Inv st → Inv (st.enter rule)
  enterLookahead : ∀ {st : State σ}, Inv st → Inv st.enterLookahead
  returnTo : ∀ {origin st : State σ}, Inv origin → Inv st → origin.Around st →
    Inv (st.returnTo setting.observer origin)
  advance : ∀ {st : State σ}, Inv st → st.offset < setting.text.size → Inv (st.advance 1)
  matched : ∀ {depth : Nat} {p : Pattern} {st last : State σ}, Fit p → Inv st →
    run setting depth p st = ⟨.matched, last⟩ → Inv last
  failed : ∀ {depth : Nat} {p : Pattern} {st last : State σ}, Fit p → Inv st →
    run setting depth p st = ⟨.failed, last⟩ → Inv last

variable {setting : Setting σ} {depth below : Nat} {p q : Pattern} {st s : State σ}

/-- A pattern tries what it makes use of. -/
theorem Tries.uses (h : Tries setting depth p st q s) : Uses setting p q := by
  induction h with
  | seqHere item items st => exact .part List.mem_cons_self
  | seqLater _ _ ih =>
      cases ih with
      | part mem => exact .part (List.mem_cons_of_mem _ mem)
  | choiceHere item items st => exact .part List.mem_cons_self
  | choiceLater _ _ ih =>
      cases ih with
      | part mem => exact .part (List.mem_cons_of_mem _ mem)
  | starHere site body st => exact .part List.mem_cons_self
  | starLater _ _ ih => exact ih
  | plusHere site body st => exact .part List.mem_cons_self
  | plusLater _ _ ih =>
      cases ih with
      | part mem => exact .part mem
  | opt body st => exact .part List.mem_cons_self
  | atMostHere body st _ => exact .part List.mem_cons_self
  | atMostLater _ _ _ ih =>
      cases ih with
      | part mem => exact .part mem
  | lookahead negated body st => exact .part List.mem_cons_self
  | skipHere stop st => exact .part List.mem_cons_self
  | skipLater _ _ _ ih => exact ih
  | untilStop site stop body st => exact .part List.mem_cons_self
  | untilBody _ => exact .part (List.mem_cons_of_mem _ List.mem_cons_self)
  | untilLater _ _ _ ih => exact ih
  | must body st => exact .part List.mem_cons_self
  | rule st found => exact .body found
  | ref st linked => exact .target linked

namespace Invariant

variable {Fit : Pattern → Prop} {Inv : State σ → Prop}

/-- The invariant holds where a pattern is tried. -/
theorem of_tries (hinv : Invariant setting Fit Inv) (h : Tries setting depth p st q s)
    (hparts : ∀ part ∈ p.parts, Fit part) (hst : Inv st) : Inv s := by
  induction h with
  | seqHere item items st => exact hst
  | seqLater first _ ih =>
      exact ih (fun part hpart => hparts part (List.mem_cons_of_mem _ hpart))
        (hinv.matched (hparts _ List.mem_cons_self) hst first)
  | choiceHere item items st => exact hst
  | @choiceLater item _ _ st _ _ first _ ih =>
      have haround := (framing_run setting depth item st).around
      rw [first] at haround
      exact ih (fun part hpart => hparts part (List.mem_cons_of_mem _ hpart))
        (hinv.returnTo hst (hinv.failed (hparts _ List.mem_cons_self) hst first) haround)
  | starHere site body st => exact hst
  | starLater round _ ih =>
      exact ih hparts (hinv.matched (hparts _ List.mem_cons_self) hst round)
  | plusHere site body st => exact hst
  | plusLater round _ ih =>
      exact ih hparts (hinv.matched (hparts _ List.mem_cons_self) hst round)
  | opt body st => exact hst
  | atMostHere body st _ => exact hst
  | atMostLater _ round _ ih =>
      exact ih hparts (hinv.matched (hparts _ List.mem_cons_self) hst round)
  | lookahead negated body st => exact hinv.enterLookahead hst
  | skipHere stop st => exact hst
  | skipLater here left _ ih =>
      exact ih hparts
        (hinv.advance (hinv.failed (hparts _ List.mem_cons_self) hst here) left)
  | untilStop site stop body st => exact hst
  | untilBody here => exact hinv.failed (hparts _ List.mem_cons_self) hst here
  | untilLater here round _ ih =>
      have hnext := hinv.failed (hparts _ List.mem_cons_self) hst here
      exact ih hparts
        (hinv.matched (hparts _ (List.mem_cons_of_mem _ List.mem_cons_self)) hnext round)
  | must body st => exact hst
  | rule st found => exact hinv.enter _ hst
  | ref st linked => exact hst

/-- The invariant holds wherever a match on the way begins. -/
theorem of_during (hinv : Invariant setting Fit Inv) (h : During setting depth p st below q s)
    (hp : Fit p) (hst : Inv st) : Fit q ∧ Inv s := by
  induction h with
  | itself depth p st => exact ⟨hp, hst⟩
  | inside tries _ ih =>
      exact ih (hinv.uses hp tries.uses)
        (hinv.of_tries tries (fun part hpart => hinv.uses hp (.part hpart)) hst)

end Invariant

end CartLua.Matching
