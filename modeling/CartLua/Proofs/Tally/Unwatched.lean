import CartLua.Proofs.Dialect.Passage
import CartLua.Proofs.Matching.StateRelations
import CartLua.Proofs.Tally.Basic

/-!
# Patterns that write nothing down

What only uses rules that are not watched adds nothing to the tally of a match, however it ends:
no move of the matcher inside such rules tells the observer anything.
-/

namespace CartLua

open Dialect

theorem State.observed_noteFailure {σ : Type} (st : State σ) :
    st.noteFailure.observed = st.observed := by
  rw [noteFailure]
  split <;> rfl

namespace Pattern

theorem usesOnly_of_mem {names : List String} {items : List Pattern} {item : Pattern}
    (hitems : allUseOnly names items = true) (hmem : item ∈ items) : item.usesOnly names = true :=
  forall_mem_of_cons (P := fun items => allUseOnly names items = true)
    (fun _ _ h => by rwa [allUseOnly, Bool.and_eq_true] at h) hitems hmem

theorem usesOnly_of_mem_parts {names : List String} {p q : Pattern} (hp : p.usesOnly names = true)
    (hq : q ∈ p.parts) : q.usesOnly names = true := by
  cases p with
  | seq items => exact usesOnly_of_mem hp hq
  | choice items => exact usesOnly_of_mem hp hq
  | repeatUntil site stop body =>
      rw [usesOnly, Bool.and_eq_true] at hp
      rcases List.mem_cons.mp hq with rfl | hq
      · exact hp.1
      · exact List.mem_singleton.mp hq ▸ hp.2
  | terminal t => cases hq
  | rule name => cases hq
  | ref site name => cases hq
  | _ => exact List.mem_singleton.mp hq ▸ hp

end Pattern

namespace Survey

variable {v : Survey} {n : Nat} {p : Pattern}
  {st last : State (List Capture)} {parts : List Tree}

variable (v) in
/-- Whether some rules use no other ones and none of them is watched. -/
def Barren (names : List String) : Prop :=
  ∀ rule ∈ v.dialect.rules, names.contains rule.name = true →
    rule.body.usesOnly names = true ∧ v.watched.contains rule.name = false

/-- A rule that is not watched is not told of. -/
theorem onMatch_of_not_watched {name : String} (h : v.watched.contains name = false) :
    v.setting.observer.onMatch name = none := by
  change (if v.watched.contains name then _ else none) = none
  rw [h]
  rfl

/-- Rules that are not watched add nothing to the tally by any move. -/
theorem Barren.moves {names : List String} (hnames : v.Barren names) :
    Matching.Moves v.setting (fun p => p.usesOnly names = true)
      (fun a b : State (List Capture) => b.observed = a.observed) where
  uses {p q} hp huses := by
    cases huses with
    | part mem => exact Pattern.usesOnly_of_mem_parts hp mem
    | @body name rule found =>
        obtain rfl := Grammar.name_of_rule? found
        exact (hnames rule (rules_grammar v.dialect ▸ Grammar.mem_of_rule? found) hp).1
    | target _ => exact hp
  refl _ := rfl
  trans hab hbc := hbc.trans hab
  terminal {t} _ st := by
    rw [Matching.terminal]
    cases t.scan v.setting.text st.offset with
    | take count => rfl
    | stay => rfl
    | miss => exact State.observed_noteFailure st
    | unclosed level => rfl
  pass _ := rfl
  noteFailure := State.observed_noteFailure
  returnTo h := h
  leave h := h
  leaveLookahead h := h
  announce {name rule} hp found st begin := by
    obtain rfl := Grammar.name_of_rule? found
    have hrule := hnames rule (rules_grammar v.dialect ▸ Grammar.mem_of_rule? found) hp
    rw [State.announce, onMatch_of_not_watched hrule.2, ite_self]

theorem Barren.observed_eq_of_fails {names : List String} (hnames : v.Barren names)
    (hp : p.usesOnly names = true) (h : v.Fails n p st last) : last.observed = st.observed := by
  have hkeeps := hnames.moves.run n hp st
  rwa [h.run_eq] at hkeeps

theorem Barren.observed_eq {names : List String} (hnames : v.Barren names)
    (hp : p.usesOnly names = true) (h : v.Succeeds n p st last parts) :
    last.observed = st.observed := by
  have hkeeps := hnames.moves.run n hp st
  rwa [h.run_eq] at hkeeps

end Survey

end CartLua
