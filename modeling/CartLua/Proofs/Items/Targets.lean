import CartLua.Proofs.Items.Desugared
import CartLua.Proofs.Items.Ends

/-!
# The targets of compound assignments

The rule of a compound assignment begins with its operator.  Its target is what comes before it in
the chain: the head of the chain, and the tails on the way down to the operator.  The grammar lets
an operator follow only a name or a tail that makes a variable.
-/

namespace CartLua

open Dialect

namespace Tree

mutual

/-- The items of a tree before the operator of the compound assignment that it reports from an
anchor outside. -/
def target (role : Role) : Tree → List Item
  | chars _ => []
  | node rule parts => if rule.anchored then [] else targetOfAll (role.inside rule) parts

/-- The items of several trees before that operator. -/
def targetOfAll (role : Role) : List Tree → List Item
  | [] => []
  | part :: parts =>
      if opensAny parts then part.items role ++ targetOfAll role parts else part.target role

end

@[simp]
theorem targetOfAll_singleton (role : Role) (t : Tree) : targetOfAll role [t] = t.target role := rfl

theorem targetOfAll_cons {parts : List Tree} (h : opensAny parts = true) (role : Role)
    (part : Tree) :
    targetOfAll role (part :: parts) = part.items role ++ targetOfAll role parts := by
  rw [targetOfAll, if_pos h]

end Tree

namespace Dialect

/-- Only some rules may report from an anchor outside. -/
theorem opens_eq_false {rule : Rule} {parts : List Tree}
    (hderived : Tree.Derived [.node rule parts])
    (hname : (traits pico8).opening.contains rule.name = false) :
    (Tree.node rule parts).opens = false := by
  obtain ⟨hrule, s, rest, hmatch⟩ := hderived.node
  have hfits := List.all_eq_true.mp (fits_rules pico8) rule hrule
  simp only [fits, Bool.and_eq_true, hname, Bool.or_false, Bool.not_eq_true', Bool.or_eq_false_iff,
    Bool.and_eq_false_iff, Bool.not_eq_false'] at hfits
  rw [Tree.opens, hfits.2.1, Bool.false_or]
  rcases hfits.2.2 with hanchor | hopens
  · rw [hanchor]
    rfl
  · rw [closed_of_match rule hopens hmatch, Bool.and_false]

variable {s rest : List Char} {parts : List Tree}

/-- A row of two rules gives their two nodes. -/
theorem of_two {first second : Rule} (hfirst : first ∈ rules pico8) (hsecond : second ∈ rules pico8)
    (h : Match pico8.grammar (.inOrder [.call first.name, .call second.name]) s parts rest) :
    ∃ inner others, parts = [.node first inner, .node second others] := by
  rw [Pattern.inOrder, Match.seq_cons_iff] at h
  · obtain ⟨_, _, _, hone, hothers, rfl⟩ := h
    obtain ⟨inner, rfl, -⟩ := of_call hfirst hone
    rw [Match.seq_cons_iff] at hothers
    obtain ⟨_, _, _, htwo, hnil, rfl⟩ := hothers
    obtain ⟨others, rfl, -⟩ := of_call hsecond htwo
    obtain ⟨rfl, -⟩ := Match.seq_nil_iff.mp hnil
    exact ⟨inner, others, rfl⟩
  · simp

theorem of_gap (h : Match pico8.grammar gap s parts rest) :
    ∃ inner, parts = [.node seps inner] := by
  obtain ⟨inner, rfl, -⟩ := of_call (by simp [rules, lexicalRules] : seps ∈ rules pico8) h
  exact ⟨inner, rfl⟩

theorem mem_reassignment : reassignment ∈ rules pico8 := by
  simp [rules, chainStatementRules, extension]

/-- The ways in which a chain goes on: a tail with what may follow it. -/
inductive Link : List Tree → Prop
  | call (inner others : List Tree) :
      Link [.node functionCallTail inner, .node callContinuation others]
  | variable (inner others : List Tree) :
      Link [.node variableTail inner, .node (variableContinuation pico8) others]

theorem link_of_callLink (h : Match pico8.grammar callLink s parts rest) : Link parts := by
  obtain ⟨inner, others, rfl⟩ := of_two mem_functionCallTail mem_callContinuation h
  exact .call inner others

theorem link_of_variableLink (h : Match pico8.grammar variableLink s parts rest) : Link parts := by
  obtain ⟨inner, others, rfl⟩ := of_two mem_variableTail (mem_variableContinuation pico8) h
  exact .variable inner others

theorem of_links (h : Match pico8.grammar (.choice [callLink, variableLink]) s parts rest) :
    Link parts := by
  obtain ⟨item, hitem, hmatch⟩ := Match.choice_iff.mp h
  simp only [List.mem_cons, List.not_mem_nil, or_false] at hitem
  rcases hitem with rfl | rfl
  · exact link_of_callLink hmatch
  · exact link_of_variableLink hmatch

theorem of_variableContinuation
    (h : Match pico8.grammar (variableContinuation pico8).body s parts rest) :
    ∃ inner tail, parts = .node seps inner :: tail ∧
      (Link tail ∨ (∃ others, tail = [.node assignments others]) ∨
        ∃ others, tail = [.node reassignment others]) := by
  simp only [variableContinuation, Pattern.inOrder] at h
  rw [Match.seq_cons_iff] at h
  obtain ⟨_, _, _, hgap, hothers, rfl⟩ := h
  obtain ⟨inner, rfl⟩ := of_gap hgap
  rw [Match.seq_cons_iff] at hothers
  obtain ⟨_, _, _, hchoice, hnil, rfl⟩ := hothers
  obtain ⟨rfl, -⟩ := Match.seq_nil_iff.mp hnil
  refine ⟨inner, _, rfl, ?_⟩
  rw [List.append_nil]
  obtain ⟨item, hitem, hmatch⟩ := Match.choice_iff.mp hchoice
  simp only [extension, List.cons_append, List.nil_append, List.mem_cons, List.not_mem_nil,
    or_false] at hitem
  have hassignments : assignments ∈ rules pico8 := by simp [rules, chainStatementRules]
  rcases hitem with rfl | rfl | rfl | rfl
  · exact .inl (link_of_callLink hmatch)
  · exact .inl (link_of_variableLink hmatch)
  · obtain ⟨others, rfl, -⟩ := of_call hassignments hmatch
    exact .inr (.inl ⟨others, rfl⟩)
  · obtain ⟨others, rfl, -⟩ := of_call mem_reassignment hmatch
    exact .inr (.inr ⟨others, rfl⟩)

/-- Padding and a way in which a chain goes on. -/
theorem of_gap_links
    (h : Match pico8.grammar (.seq [gap, .choice [callLink, variableLink]]) s parts rest) :
    ∃ inner tail, parts = .node seps inner :: tail ∧ Link tail := by
  rw [Match.seq_cons_iff] at h
  obtain ⟨_, _, _, hgap, hothers, rfl⟩ := h
  obtain ⟨inner, rfl⟩ := of_gap hgap
  rw [Match.seq_cons_iff] at hothers
  obtain ⟨_, _, _, hlinks, hnil, rfl⟩ := hothers
  obtain ⟨rfl, -⟩ := Match.seq_nil_iff.mp hnil
  exact ⟨inner, _, rfl, by simpa using of_links hlinks⟩

theorem of_callContinuation (h : Match pico8.grammar callContinuation.body s parts rest) :
    parts = [] ∨ ∃ inner tail, parts = .node seps inner :: tail ∧ Link tail := by
  rcases Match.opt_iff.mp h with ⟨rfl, -⟩ | h
  · exact .inl rfl
  · exact .inr (of_gap_links h)

theorem of_bracketContinuation (h : Match pico8.grammar bracketContinuation.body s parts rest) :
    ∃ inner tail, parts = .node seps inner :: tail ∧ Link tail :=
  of_gap_links h

/-- A chain goes on behind its head as a variable, or as a bracket. -/
theorem of_wholeChainStatement (h : Match pico8.grammar chainStatement.body s parts rest) :
    (∃ inner others, parts = [.node nameRule inner, .node (variableContinuation pico8) others]) ∨
      ∃ inner others, parts = [.node bracketExpr inner, .node bracketContinuation others] := by
  obtain ⟨item, hitem, hmatch⟩ := Match.choice_iff.mp h
  simp only [List.mem_cons, List.not_mem_nil, or_false] at hitem
  have hname : nameRule ∈ rules pico8 := by simp [rules, lexicalRules]
  have hbracket : bracketExpr ∈ rules pico8 := by simp [rules, valueRules]
  rcases hitem with rfl | rfl
  · exact .inl (of_two hname (mem_variableContinuation pico8) hmatch)
  · exact .inr (of_two hbracket mem_bracketContinuation hmatch)

/-- An index ends with its bracket. -/
theorem of_variableTailOne (h : Match pico8.grammar variableTailOne.body s parts rest) :
    ∃ front, parts = front ++ [.chars [']']] := by
  simp only [variableTailOne, Pattern.ifMust, List.map_cons, List.map_nil, Match.seq_cons_iff,
    Match.seq_nil_iff, Match.must_iff] at h
  obtain ⟨a, _, _, -,
    ⟨b, _, _, -, ⟨c, _, _, -, ⟨d, _, _, -, ⟨last, _, _, hlast, ⟨rfl, -⟩, rfl⟩, rfl⟩, rfl⟩,
    rfl⟩, rfl⟩ := h
  obtain ⟨mark, hmark, rfl, -⟩ := Match.of_oneOf hlast
  obtain rfl : mark = ']' := by simpa using hmark
  exact ⟨a ++ (b ++ (c ++ d)), by simp⟩

/-- A field ends with its name. -/
theorem of_variableTailTwo (h : Match pico8.grammar variableTailTwo.body s parts rest) :
    ∃ front inner, parts = front ++ [.node nameRule inner] := by
  simp only [variableTailTwo, Pattern.ifMust, List.map_cons, List.map_nil, Match.seq_cons_iff,
    Match.seq_nil_iff, Match.must_iff] at h
  obtain ⟨a, _, _, -, ⟨b, _, _, -, ⟨last, _, _, hlast, ⟨rfl, -⟩, rfl⟩, rfl⟩, rfl⟩ := h
  obtain ⟨inner, rfl, -⟩ := of_call (by simp [rules, lexicalRules] : nameRule ∈ rules pico8) hlast
  exact ⟨a ++ b, inner, by simp⟩

/-- A tail that makes a variable ends with a name or the bracket of an index. -/
theorem closes_of_variableTail (h : Match pico8.grammar variableTail.body s parts rest)
    (role : Role) : Item.Closes ((Tree.node variableTail parts).items role) := by
  have hone : variableTailOne ∈ rules pico8 := by simp [rules, chainRules]
  have htwo : variableTailTwo ∈ rules pico8 := by simp [rules, chainRules]
  rw [Tree.items_of_none rfl]
  obtain ⟨item, hitem, hmatch⟩ := Match.choice_iff.mp h
  simp only [List.mem_cons, List.not_mem_nil, or_false] at hitem
  rcases hitem with rfl | rfl
  · obtain ⟨inner, rfl, hinner⟩ := of_call hone hmatch
    obtain ⟨front, rfl⟩ := of_variableTailOne hinner
    rw [Tree.itemsOfAll, Tree.items_of_none rfl, Tree.itemsOfAll_append, Tree.itemsOfAll,
      List.append_nil]
    exact Item.closes_concat (.inr rfl) _
  · obtain ⟨inner, rfl, hinner⟩ := of_call htwo hmatch
    obtain ⟨front, word, rfl⟩ := of_variableTailTwo hinner
    rw [Tree.itemsOfAll, Tree.items_of_none rfl, Tree.itemsOfAll_append, Tree.itemsOfAll,
      List.append_nil,
      Tree.itemsOfAll, Tree.items_of_lexical (rfl : Role.ofRule? nameRule.name = some .word)]
    exact Item.closes_concat (.inl rfl) _

/-! ## What comes before the operator -/

/-- What an open rule of a chain has before the operator: padding alone, if the operator follows
right after, or the end of a variable. -/
def ClosesBelow (size : Nat) : Prop :=
  ∀ (role : Role) (rule : Rule) (parts : List Tree), sizeOf parts < size →
    Tree.Derived [.node rule parts] → (Tree.node rule parts).opens = true →
      Item.Closes ((Tree.node rule parts).target role) ∨
        (rule.name = (variableContinuation pico8).name ∨ rule.name = reassignment.name) ∧
          ∀ item ∈ (Tree.node rule parts).target role, item.isPadding = true

variable {size : Nat}

/-- The way in which an open chain goes on holds the end of a variable. -/
theorem ClosesBelow.link (ih : ClosesBelow size) (h : Link parts) (hsize : sizeOf parts ≤ size)
    (hderived : Tree.Derived parts) (hopens : Tree.opensAny parts = true) (role : Role) :
    Item.Closes (Tree.targetOfAll role parts) := by
  cases h with
  | call inner others =>
      have hclosed := opens_eq_false hderived.head (by decide)
      rw [Tree.opensAny, hclosed, Bool.false_or] at hopens
      simp only [List.cons.sizeOf_spec, Tree.node.sizeOf_spec] at hsize
      rw [Tree.targetOfAll_cons hopens]
      apply Item.Closes.append_left
      rcases ih role callContinuation others (by omega) hderived.tail
        (by simpa [Tree.opensAny] using hopens) with hcloses | ⟨hname | hname, -⟩
      · exact hcloses
      · exact absurd hname (by decide)
      · exact absurd hname (by decide)
  | «variable» inner others =>
      have hclosed := opens_eq_false hderived.head (by decide)
      rw [Tree.opensAny, hclosed, Bool.false_or] at hopens
      simp only [List.cons.sizeOf_spec, Tree.node.sizeOf_spec] at hsize
      rw [Tree.targetOfAll_cons hopens]
      obtain ⟨-, s, rest, hmatch⟩ := hderived.head.node
      rcases ih role (variableContinuation pico8) others (by omega) hderived.tail
        (by simpa [Tree.opensAny] using hopens) with hcloses | ⟨-, hpadding⟩
      · exact hcloses.append_left _
      · exact (closes_of_variableTail hmatch role).append_padding hpadding

/-- Behind padding, the way in which an open chain goes on holds the end of a variable. -/
theorem ClosesBelow.gap_link (ih : ClosesBelow size) {inner : List Tree} (h : Link parts)
    (hsize : sizeOf (Tree.node seps inner :: parts) ≤ size)
    (hderived : Tree.Derived (.node seps inner :: parts))
    (hopens : Tree.opensAny (.node seps inner :: parts) = true) (role : Role) :
    Item.Closes (Tree.targetOfAll role (.node seps inner :: parts)) := by
  have hclosed := opens_eq_false hderived.head (by decide)
  rw [Tree.opensAny, hclosed, Bool.false_or] at hopens
  simp only [List.cons.sizeOf_spec] at hsize
  rw [Tree.targetOfAll_cons hopens]
  exact (ih.link h (by omega) hderived.tail hopens role).append_left _

/-- Before the operator of a compound assignment comes the end of a variable.  The induction is on
the size of the trees. -/
theorem closesBelow (size : Nat) : ClosesBelow size := by
  induction size with
  | zero =>
      intro role rule parts hsize
      exact absurd hsize (Nat.not_lt_zero _)
  | succ size ih =>
      intro role rule parts hsize hderived hopens
      obtain ⟨hrule, s, rest, hmatch⟩ := hderived.node
      have hname : (traits pico8).opening.contains rule.name = true := by
        rw [← Bool.not_eq_false]
        intro hnone
        rw [opens_eq_false hderived hnone] at hopens
        cases hopens
      have hcases :
          rule.name = (variableContinuation pico8).name ∨ rule.name = callContinuation.name ∨
          rule.name = bracketContinuation.name ∨ rule.name = reassignment.name := by
        have hmem : rule.name ∈ (traits pico8).opening := List.contains_iff_mem.mp hname
        simp only [traits, List.mem_cons, List.not_mem_nil, or_false] at hmem
        exact hmem
      have hinner :
          ∀ {parts : List Tree}, (Tree.node rule parts).opens = true → rule.anchor = false →
          rule.anchored = false → Tree.opensAny parts = true := by
        intro parts hopens hanchor hanchored
        simpa [Tree.opens, hanchor, hanchored] using hopens
      rw [Tree.target]
      rcases hcases with hname | hname | hname | hname
      · obtain rfl := eq_of_name_eq hrule (mem_variableContinuation pico8) hname
        rw [if_neg (by decide)]
        have hany := hinner hopens rfl rfl
        obtain ⟨inner, tail, rfl, hlink | ⟨others, rfl⟩ | ⟨others, rfl⟩⟩ :=
          of_variableContinuation hmatch
        · exact .inl (ih.gap_link hlink (Nat.le_of_lt_succ hsize) hderived.inner hany _)
        · simp [Tree.opensAny, opens_eq_false hderived.inner.head (by decide),
            opens_eq_false hderived.inner.tail (by decide)] at hany
        · refine .inr ⟨.inl rfl, ?_⟩
          rw [Tree.targetOfAll_cons rfl]
          change ∀ item ∈ (Tree.node seps inner).items _ ++ [], item.isPadding = true
          rw [List.append_nil]
          exact isPadding_of_padding hderived.inner.head rfl _
      · obtain rfl := eq_of_name_eq hrule mem_callContinuation hname
        rw [if_neg (by decide)]
        have hany := hinner hopens rfl rfl
        rcases of_callContinuation hmatch with rfl | ⟨inner, tail, rfl, hlink⟩
        · cases hany
        · exact .inl (ih.gap_link hlink (Nat.le_of_lt_succ hsize) hderived.inner hany _)
      · obtain rfl := eq_of_name_eq hrule mem_bracketContinuation hname
        rw [if_neg (by decide)]
        obtain ⟨inner, tail, rfl, hlink⟩ := of_bracketContinuation hmatch
        exact .inl
          (ih.gap_link hlink (Nat.le_of_lt_succ hsize) hderived.inner (hinner hopens rfl rfl) _)
      · obtain rfl := eq_of_name_eq hrule mem_reassignment hname
        exact .inr ⟨.inr rfl, nofun⟩

/-- The target of a compound assignment ends as a variable does. -/
theorem closes_of_chainStatement (hderived : Tree.Derived [.node chainStatement parts])
    (hopens : Tree.opensAny parts = true) (role : Role) :
      Item.Closes (Tree.targetOfAll role parts) := by
  obtain ⟨-, s, rest, hmatch⟩ := hderived.node
  have hnode : ∀ {head rule : Rule} {inner others : List Tree}, parts =
      [.node head inner, .node rule others] → (traits pico8).opening.contains head.name = false →
        Tree.targetOfAll role parts =
          (Tree.node head inner).items role ++ (Tree.node rule others).target role ∧
        (Item.Closes ((Tree.node rule others).target role) ∨
          (rule.name = (variableContinuation pico8).name ∨ rule.name = reassignment.name) ∧
            ∀ item ∈ (Tree.node rule others).target role, item.isPadding = true) := by
    rintro head rule inner others rfl hname
    rw [Tree.opensAny, opens_eq_false hderived.inner.head hname, Bool.false_or] at hopens
    refine ⟨Tree.targetOfAll_cons hopens role _, ?_⟩
    exact closesBelow _ role rule others (Nat.lt_succ_self _) hderived.inner.tail
      (by simpa [Tree.opensAny] using hopens)
  rcases of_wholeChainStatement hmatch with ⟨inner, others, rfl⟩ | ⟨inner, others, rfl⟩
  · obtain ⟨htarget, hends⟩ := hnode rfl (by decide)
    rw [htarget]
    rcases hends with hcloses | ⟨-, hpadding⟩
    · exact hcloses.append_left _
    · rw [Tree.items_of_lexical (rfl : Role.ofRule? nameRule.name = some .word)]
      exact (Item.closes_concat (.inl rfl) []).append_padding hpadding
  · obtain ⟨htarget, hends⟩ := hnode rfl (by decide)
    rw [htarget]
    rcases hends with hcloses | ⟨hname | hname, -⟩
    · exact hcloses.append_left _
    · exact absurd hname (by decide)
    · exact absurd hname (by decide)

end Dialect

end CartLua
