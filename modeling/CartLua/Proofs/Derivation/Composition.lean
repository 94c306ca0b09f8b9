import CartLua.Proofs.Grammar.Sound

/-!
# How matches are composed

Whatever pattern a text is derived by, the trees it is matched as are put together in few ways:
characters that a terminal takes or a loop passes by, rules around what their bodies match, and
one match behind another.  What is kept by these holds of every match.
-/

namespace CartLua

namespace Pattern

theorem mem_subpatternsOfAll {q : Pattern} {items : List Pattern} :
    q ∈ subpatternsOfAll items ↔ ∃ item ∈ items, q ∈ item.subpatterns := by
  induction items with
  | nil => simp [subpatternsOfAll]
  | cons item items ih => simp [subpatternsOfAll, ih, or_comm]

/-- Inside a pattern are the pattern itself and what is inside its parts. -/
theorem mem_subpatterns {p q : Pattern} :
    q ∈ p.subpatterns ↔ q = p ∨ ∃ part ∈ p.parts, q ∈ part.subpatterns := by
  cases p <;> simp [subpatterns, parts, mem_subpatternsOfAll, or_comm]

/-- Whether all terminals in a pattern have a property. -/
def terminalsAll (ok : Terminal → Bool) (p : Pattern) : Bool :=
  p.subpatterns.all fun
    | terminal t => ok t
    | _ => true

variable {ok : Terminal → Bool} {p part : Pattern}

theorem terminalsAll_of_mem_parts (hp : p.terminalsAll ok = true) (hpart : part ∈ p.parts) :
    part.terminalsAll ok = true := by
  rw [terminalsAll, List.all_eq_true] at hp ⊢
  exact fun q hq => hp q (mem_subpatterns.mpr (.inr ⟨part, hpart, hq⟩))

theorem terminalsAll_of_terminal {t : Terminal} (hp : (terminal t).terminalsAll ok = true) :
    ok t = true :=
  List.all_eq_true.mp hp (terminal t) List.mem_cons_self

/-- What is true of the terminals of a pattern is so for its parts alone. -/
theorem terminalsAll_of_parts {q : Pattern} (hp : p.terminalsAll ok = true)
    (hq : ∀ t, q ≠ terminal t) (hparts : q.parts ⊆ p.parts) : q.terminalsAll ok = true := by
  rw [terminalsAll, List.all_eq_true]
  intro r hr
  rcases mem_subpatterns.mp hr with rfl | ⟨part, hpart, hr⟩
  · cases r <;> first | rfl | exact absurd rfl (hq _)
  · exact List.all_eq_true.mp (terminalsAll_of_mem_parts hp (hparts hpart)) r hr

/-- Every terminal is a terminal. -/
theorem terminalsAll_true (p : Pattern) : p.terminalsAll (fun _ => true) = true := by
  rw [terminalsAll, List.all_eq_true]
  intro q _
  cases q <;> rfl

end Pattern

namespace Derives

variable {g : Grammar} {ok : Terminal → Bool} {P : List Tree → List Char → List Char → Prop}

/-- What holds of characters taken and passed by, and is kept by rules and by one match behind
another, holds of every match. -/
theorem of_parts (hok : ∀ rule ∈ g.rules, rule.body.terminalsAll ok = true)
    (nil : ∀ s, P [] s s)
    (append : ∀ {as bs s t rest}, P as s t → P bs t rest → P (as ++ bs) s rest)
    (taken : ∀ {t : Terminal} {s : List Char} {count : Nat}, ok t = true →
      t.scan s.toArray 0 = .take count → P [.chars (s.take count)] s (s.drop count))
    (passed : ∀ c s, P [.chars [c]] (c :: s) s)
    (node : ∀ {name rule inner s rest}, g.rule? name = some rule →
      Derives g rule.body s (.matched inner rest) → P inner s rest → P [.node rule inner] s rest)
    {p : Pattern} {s rest : List Char} {parts : List Tree} (hp : p.terminalsAll ok = true)
    (h : Derives g p s (.matched parts rest)) : P parts s rest := by
  induction h using matched_induction with
  | @terminal t s parts rest h =>
      generalize ha : Answer.matched parts rest = a at h
      cases h
      rw [Terminal.answer] at ha
      split at ha <;> cases ha
      · exact taken (Pattern.terminalsAll_of_terminal hp) ‹_›
      · exact nil _
  | seqNil s => exact nil s
  | @seqCons item items _ _ _ _ _ _ _ ihfirst ihothers =>
      have hitems : (Pattern.seq items).terminalsAll ok = true :=
        Pattern.terminalsAll_of_parts hp (by simp) (List.subset_cons_self item items)
      exact append (ihfirst (Pattern.terminalsAll_of_mem_parts hp List.mem_cons_self))
        (ihothers hitems)
  | choiceHere _ ih => exact ih (Pattern.terminalsAll_of_mem_parts hp List.mem_cons_self)
  | @choiceNext item items _ _ _ _ _ ih =>
      exact ih (Pattern.terminalsAll_of_parts hp (by simp) (List.subset_cons_self item items))
  | starMore _ _ ihround ihothers =>
      exact append (ihround (Pattern.terminalsAll_of_mem_parts hp List.mem_cons_self)) (ihothers hp)
  | starStop _ => exact nil _
  | @plusMore site body _ _ _ _ _ _ _ ihround ihothers =>
      have hstar : (Pattern.star site body).terminalsAll ok = true :=
        Pattern.terminalsAll_of_parts hp (by simp) (List.Subset.refl _)
      exact append (ihround (Pattern.terminalsAll_of_mem_parts hp List.mem_cons_self))
        (ihothers hstar)
  | optHere _ ih => exact ih (Pattern.terminalsAll_of_mem_parts hp List.mem_cons_self)
  | optNot _ => exact nil _
  | atMostZero s _ => exact nil s
  | @atMostMore count body _ _ _ _ _ _ _ _ ihround ihothers =>
      have hothers : (Pattern.atMost (count - 1) body).terminalsAll ok = true :=
        Pattern.terminalsAll_of_parts hp (by simp) (List.Subset.refl _)
      exact append (ihround (Pattern.terminalsAll_of_mem_parts hp List.mem_cons_self))
        (ihothers hothers)
  | atMostStop _ _ => exact nil _
  | lookaheadHere _ _ => exact nil _
  | lookaheadNot _ => exact nil _
  | skipHere _ ih => exact ih (Pattern.terminalsAll_of_mem_parts hp List.mem_cons_self)
  | @skipPass _ c s _ _ _ _ ih => exact append (passed c s) (ih hp)
  | untilHere _ ih => exact ih (Pattern.terminalsAll_of_mem_parts hp List.mem_cons_self)
  | untilMore _ _ _ ihround ihothers =>
      have hbody := Pattern.terminalsAll_of_mem_parts hp (List.mem_cons_of_mem _ List.mem_cons_self)
      exact append (ihround hbody) (ihothers hp)
  | must _ ih => exact ih (Pattern.terminalsAll_of_mem_parts hp List.mem_cons_self)
  | @rule _ rule _ _ _ found inner ih =>
      exact node found inner (ih (hok rule (Grammar.mem_of_rule? found)))
  | ref _ _ ih => exact ih rfl

/-- Every rule in a derived match is a rule of the grammar, and its parts are derived from
its body. -/
theorem of_mem_nodes {p : Pattern} {s rest : List Char} {parts : List Tree}
    (h : Derives g p s (.matched parts rest)) :
    ∀ n ∈ Tree.nodesOfAll parts, (∃ name, g.rule? name = some n.1) ∧
      ∃ s rest, Derives g n.1.body s (.matched n.2 rest) := by
  have hok : ∀ rule ∈ g.rules, rule.body.terminalsAll (fun _ => true) = true :=
    fun rule _ => rule.body.terminalsAll_true
  refine of_parts (P := fun parts _ _ => ∀ n ∈ Tree.nodesOfAll parts,
    (∃ name, g.rule? name = some n.1) ∧ ∃ s rest, Derives g n.1.body s (.matched n.2 rest))
    hok ?nil ?append ?taken ?passed ?node p.terminalsAll_true h
  case nil => simp [Tree.nodesOfAll]
  case append =>
    intro as bs _ _ _ has hbs
    rw [Tree.nodesOfAll_append, List.forall_mem_append]
    exact ⟨has, hbs⟩
  case taken => simp [Tree.nodesOfAll, Tree.nodes]
  case passed => simp [Tree.nodesOfAll, Tree.nodes]
  case node =>
    intro name rule inner s rest found hbody hinner n hn
    simp only [Tree.nodesOfAll, Tree.nodes, List.append_nil, List.mem_cons] at hn
    rcases hn with rfl | hn
    · exact ⟨⟨name, found⟩, s, rest, hbody⟩
    · exact hinner n hn

end Derives

end CartLua
