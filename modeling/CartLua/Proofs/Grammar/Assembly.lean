import CartLua.Proofs.Derivation.Composition
import CartLua.Proofs.Grammar.SelfCheck

/-!
# Grammars made by definitions and references

A grammar starts empty.  References are made, patterns are put together from
patterns made before, rules are defined with a pattern for their body, and in the
end everything is linked.  Whatever is made this way is assembled: its rules refer to
each other through linked references only, and a site stands for one pattern.
-/

namespace CartLua

namespace Pattern

/-- Whether a pattern that tells its uses apart has a site that was given out, and is no
rule itself. -/
def Placed (sites : Nat) : Pattern → Prop
  | star site _ => ∃ k, site = some k ∧ k < sites
  | plus site _ => ∃ k, site = some k ∧ k < sites
  | repeatUntil site _ _ => ∃ k, site = some k ∧ k < sites
  | ref site _ => ∃ k, site = some k ∧ k < sites
  | rule _ => False
  | _ => True

theorem Placed.mono {sites more : Nat} {p : Pattern} (hp : p.Placed sites) (hmore : sites ≤ more) :
    p.Placed more := by
  cases p with
  | rule name => exact hp
  | star site body =>
      obtain ⟨k, hk, hlt⟩ := hp
      exact ⟨k, hk, Nat.lt_of_lt_of_le hlt hmore⟩
  | plus site body =>
      obtain ⟨k, hk, hlt⟩ := hp
      exact ⟨k, hk, Nat.lt_of_lt_of_le hlt hmore⟩
  | repeatUntil site stop body =>
      obtain ⟨k, hk, hlt⟩ := hp
      exact ⟨k, hk, Nat.lt_of_lt_of_le hlt hmore⟩
  | ref site name =>
      obtain ⟨k, hk, hlt⟩ := hp
      exact ⟨k, hk, Nat.lt_of_lt_of_le hlt hmore⟩
  | _ => trivial

/-- The site of a placed pattern was given out. -/
theorem Placed.site_lt {sites k : Nat} {p : Pattern} (hp : p.Placed sites)
    (hsite : p.site = some k) : k < sites := by
  cases p with
  | star site body =>
      obtain ⟨_, rfl, hlt⟩ := hp
      cases hsite
      exact hlt
  | plus site body =>
      obtain ⟨_, rfl, hlt⟩ := hp
      cases hsite
      exact hlt
  | repeatUntil site stop body =>
      obtain ⟨_, rfl, hlt⟩ := hp
      cases hsite
      exact hlt
  | ref site name =>
      obtain ⟨_, rfl, hlt⟩ := hp
      cases hsite
      exact hlt
  | _ => cases hsite

mutual

/-- A pattern all of whose loops have sites is not numbered again. -/
theorem number_of_placed {sites : Nat} (next : Nat) :
    (p : Pattern) → (∀ q ∈ p.subpatterns, q.Placed sites) → p.number next = (p, next)
  | terminal _, _ => rfl
  | seq items, hp => by
      rw [number, numberAll_of_placed next items fun q hq => hp q (List.mem_cons_of_mem _ hq)]
  | choice alternatives, hp => by
      rw [number,
        numberAll_of_placed next alternatives fun q hq => hp q (List.mem_cons_of_mem _ hq)]
  | star site body, hp => by
      obtain ⟨k, rfl, _⟩ := hp _ List.mem_cons_self
      rw [number, number_of_placed next body fun q hq => hp q (List.mem_cons_of_mem _ hq)]
  | plus site body, hp => by
      obtain ⟨k, rfl, _⟩ := hp _ List.mem_cons_self
      rw [number, number_of_placed next body fun q hq => hp q (List.mem_cons_of_mem _ hq)]
  | opt body, hp => by
      rw [number, number_of_placed next body fun q hq => hp q (List.mem_cons_of_mem _ hq)]
  | atMost count body, hp => by
      rw [number, number_of_placed next body fun q hq => hp q (List.mem_cons_of_mem _ hq)]
  | lookahead negated body, hp => by
      rw [number, number_of_placed next body fun q hq => hp q (List.mem_cons_of_mem _ hq)]
  | skipTo stop, hp => by
      rw [number, number_of_placed next stop fun q hq => hp q (List.mem_cons_of_mem _ hq)]
  | repeatUntil site stop body, hp => by
      obtain ⟨k, rfl, _⟩ := hp _ List.mem_cons_self
      have hstop := number_of_placed next stop fun q hq =>
        hp q (List.mem_cons_of_mem _ (List.mem_append_right _ hq))
      have hbody := number_of_placed next body fun q hq =>
        hp q (List.mem_cons_of_mem _ (List.mem_append_left _ hq))
      rw [number, hstop]
      dsimp only
      rw [hbody]
  | must body, hp => by
      rw [number, number_of_placed next body fun q hq => hp q (List.mem_cons_of_mem _ hq)]
  | rule _, _ => rfl
  | ref _ _, _ => rfl

theorem numberAll_of_placed {sites : Nat} (next : Nat) :
    (items : List Pattern) → (∀ q ∈ subpatternsOfAll items, q.Placed sites) →
      numberAll next items = (items, next)
  | [], _ => rfl
  | item :: items, hp => by
      have hitem := number_of_placed next item fun q hq => hp q (List.mem_append_right _ hq)
      have hitems := numberAll_of_placed next items fun q hq => hp q (List.mem_append_left _ hq)
      rw [numberAll, hitem]
      dsimp only
      rw [hitems]

end

/-- Whether a pattern is a new one over parts: no rule, no reference, and no loop that has a
site already. -/
def New : Pattern → Prop
  | star site _ => site = none
  | plus site _ => site = none
  | repeatUntil site _ _ => site = none
  | rule _ => False
  | ref _ _ => False
  | _ => True

/-- Numbering a new pattern over placed parts gives a loop the next site, and leaves the
parts. -/
theorem number_of_new {sites : Nat} {p : Pattern} (hp : p.New)
    (hparts : ∀ part ∈ p.parts, ∀ q ∈ part.subpatterns, q.Placed sites) :
    sites ≤ (p.number sites).2 ∧ (p.number sites).1.parts = p.parts ∧
      (p.number sites).1.Placed (p.number sites).2 ∧
      ∀ k, (p.number sites).1.site = some k → k = sites := by
  cases p with
  | terminal t => exact ⟨Nat.le_refl _, rfl, trivial, fun _ h => absurd h (by simp [number, site])⟩
  | seq items =>
      rw [number, numberAll_of_placed sites items fun q hq => by
        obtain ⟨part, hpart, hq⟩ := mem_subpatternsOfAll.mp hq
        exact hparts part hpart q hq]
      exact ⟨Nat.le_refl _, rfl, trivial, fun _ h => absurd h (by simp [site])⟩
  | choice alternatives =>
      rw [number, numberAll_of_placed sites alternatives fun q hq => by
        obtain ⟨part, hpart, hq⟩ := mem_subpatternsOfAll.mp hq
        exact hparts part hpart q hq]
      exact ⟨Nat.le_refl _, rfl, trivial, fun _ h => absurd h (by simp [site])⟩
  | star site body =>
      cases (hp : site = none)
      rw [number, number_of_placed sites body (hparts body (by simp [parts]))]
      exact ⟨Nat.le_succ _, rfl, ⟨sites, rfl, Nat.lt_succ_self _⟩,
        fun _ h => (Option.some.inj h).symm⟩
  | plus site body =>
      cases (hp : site = none)
      rw [number, number_of_placed sites body (hparts body (by simp [parts]))]
      exact ⟨Nat.le_succ _, rfl, ⟨sites, rfl, Nat.lt_succ_self _⟩,
        fun _ h => (Option.some.inj h).symm⟩
  | opt body =>
      rw [number, number_of_placed sites body (hparts body (by simp [parts]))]
      exact ⟨Nat.le_refl _, rfl, trivial, fun _ h => absurd h (by simp [site])⟩
  | atMost count body =>
      rw [number, number_of_placed sites body (hparts body (by simp [parts]))]
      exact ⟨Nat.le_refl _, rfl, trivial, fun _ h => absurd h (by simp [site])⟩
  | lookahead negated body =>
      rw [number, number_of_placed sites body (hparts body (by simp [parts]))]
      exact ⟨Nat.le_refl _, rfl, trivial, fun _ h => absurd h (by simp [site])⟩
  | skipTo stop =>
      rw [number, number_of_placed sites stop (hparts stop (by simp [parts]))]
      exact ⟨Nat.le_refl _, rfl, trivial, fun _ h => absurd h (by simp [site])⟩
  | repeatUntil site stop body =>
      cases (hp : site = none)
      rw [number, number_of_placed sites stop (hparts stop (by simp [parts]))]
      dsimp only
      rw [number_of_placed sites body (hparts body (by simp [parts]))]
      exact ⟨Nat.le_succ _, rfl, ⟨sites, rfl, Nat.lt_succ_self _⟩,
        fun _ h => (Option.some.inj h).symm⟩
  | must body =>
      rw [number, number_of_placed sites body (hparts body (by simp [parts]))]
      exact ⟨Nat.le_refl _, rfl, trivial, fun _ h => absurd h (by simp [site])⟩
  | rule name => exact hp.elim
  | ref site name => exact hp.elim

end Pattern

namespace Grammar

/-- The grammars that come about step by step, each with the patterns at hand to make more
of. -/
inductive Builds : Grammar → List Pattern → Prop
  | empty (name root : String) (keywords : List String) : Builds (empty name root keywords) []
  | refer {g : Grammar} {made : List Pattern} (h : Builds g made) (name : String) :
      Builds (g.refer name).2 ((g.refer name).1 :: made)
  | place {g : Grammar} {made : List Pattern} (h : Builds g made) (p : Pattern) (new : p.New)
      (parts : ∀ part ∈ p.parts, part ∈ made) : Builds (g.place p).2 ((g.place p).1 :: made)
  | define {g g' : Grammar} {made : List Pattern} (h : Builds g made) (rule : Rule)
      (body : rule.body ∈ made) (free : g.define? rule = some g') : Builds g' made
  | link {g : Grammar} {made : List Pattern} (h : Builds g made) : Builds g.link made

/-- What holds of the patterns at hand: every site was given out, and for one pattern. -/
structure Tidy (sites : Nat) (made : List Pattern) : Prop where
  placed : ∀ p ∈ made, ∀ q ∈ p.subpatterns, q.Placed sites
  shared : ∀ p ∈ made, ∀ p' ∈ made, ∀ q ∈ p.subpatterns, ∀ q' ∈ p'.subpatterns,
    q.site = q'.site → q'.site ≠ none → q = q'

/-- One more pattern over the patterns at hand is tidy, if its own site is new. -/
theorem Tidy.cons {sites sites' : Nat} {made : List Pattern} (h : Tidy sites made) {p : Pattern}
    (hparts : ∀ part ∈ p.parts, part ∈ made) (hle : sites ≤ sites') (hplaced : p.Placed sites')
    (hsite : ∀ k, p.site = some k → k = sites) : Tidy sites' (p :: made) := by
  have hinside : ∀ r ∈ p :: made, ∀ q ∈ r.subpatterns,
      q = p ∨ ∃ r ∈ made, q ∈ r.subpatterns := by
    intro r hr q hq
    rcases List.mem_cons.mp hr with rfl | hr
    · rcases Pattern.mem_subpatterns.mp hq with rfl | ⟨part, hpart, hq⟩
      · exact .inl rfl
      · exact .inr ⟨part, hparts part hpart, hq⟩
    · exact .inr ⟨r, hr, hq⟩
  have hnew : ∀ r ∈ made, ∀ q ∈ r.subpatterns, q.site ≠ none → q.site ≠ p.site := by
    intro r hr q hq hsome heq
    obtain ⟨k, hk⟩ := Option.ne_none_iff_exists'.mp hsome
    have hlt := (h.placed r hr q hq).site_lt hk
    have := hsite k (heq.symm.trans hk)
    omega
  constructor
  · intro r hr q hq
    rcases hinside r hr q hq with rfl | ⟨r, hr, hq⟩
    · exact hplaced
    · exact (h.placed r hr q hq).mono hle
  · intro r hr r' hr' q hq q' hq' heq hsome
    rcases hinside r hr q hq with hqp | ⟨t, ht, hqt⟩
    · rcases hinside r' hr' q' hq' with hqp' | ⟨t', ht', hqt'⟩
      · rw [hqp, hqp']
      · exact absurd (hqp ▸ heq.symm) (hnew t' ht' q' hqt' hsome)
    · rcases hinside r' hr' q' hq' with hqp' | ⟨t', ht', hqt'⟩
      · exact absurd (hqp' ▸ heq) (hnew t ht q hqt (heq ▸ hsome))
      · exact h.shared t ht t' ht' q hqt q' hqt' heq hsome

namespace Builds

variable {g : Grammar} {made : List Pattern}

theorem tidy (h : Builds g made) : Tidy g.sites made := by
  induction h with
  | empty => exact ⟨fun _ h => absurd h List.not_mem_nil, fun _ h => absurd h List.not_mem_nil⟩
  | refer _ name ih =>
      exact ih.cons (fun _ h => absurd h List.not_mem_nil) (Nat.le_succ _)
        ⟨_, rfl, Nat.lt_succ_self _⟩ fun _ h => (Option.some.inj h).symm
  | place _ p new parts ih =>
      obtain ⟨hle, hparts, hplaced, hsite⟩ :=
        Pattern.number_of_new new fun part hpart => ih.placed part (parts part hpart)
      exact ih.cons (fun part hpart => parts part (hparts ▸ hpart)) hle hplaced hsite
  | define _ rule _ free ih =>
      rw [define?] at free
      split at free <;> cases free
      exact ih
  | link _ ih => exact ih

theorem body_mem (h : Builds g made) : ∀ rule ∈ g.rules, rule.body ∈ made := by
  induction h with
  | empty => exact fun _ h => absurd h List.not_mem_nil
  | refer _ name ih => exact fun rule hrule => List.mem_cons_of_mem _ (ih rule hrule)
  | place _ p new parts ih => exact fun rule hrule => List.mem_cons_of_mem _ (ih rule hrule)
  | define _ rule body free ih =>
      rw [define?] at free
      split at free <;> cases free
      intro other hrule
      rcases List.mem_append.mp hrule with hrule | hrule
      · exact ih other hrule
      · cases List.mem_singleton.mp hrule
        exact body
  | link _ ih => exact ih

/-- A grammar made step by step and then linked is assembled. -/
theorem assembled (h : Builds g made) : g.link.Assembled where
  unplaced rule hrule name hname := h.tidy.placed rule.body (h.body_mem rule hrule) _ hname
  linked rule hrule site name hname hdefined := by
    obtain ⟨k, rfl, hlt⟩ := h.tidy.placed rule.body (h.body_mem rule hrule) _ hname
    have hrule : g.index[name]?.isSome = true := hdefined
    have hcontains : g.index.contains name = true := by simpa using hrule
    have hless : decide (k < g.sites) = true := decide_eq_true hlt
    exact (Bool.and_eq_true _ _).mpr ⟨hless, hcontains⟩
  shared rule hrule p hp q hq hsite hsome :=
    h.tidy.shared rule.body (h.body_mem rule hrule) rule.body (h.body_mem rule hrule) q hq p hp
      hsite hsome

end Builds

end Grammar

end CartLua
