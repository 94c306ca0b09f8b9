import CartLua.Desugar.Plan
import CartLua.Proofs.Grammar.LuaSound

/-!
# The shape of matches

What the trees of some rules look like: those that the recorder looks out for, and
those around them.
-/

namespace CartLua

namespace Pattern

mutual

/-- Whether a pattern uses only some rules. -/
def callsWithin (names : List String) : Pattern → Bool
  | terminal _ => true
  | seq items => allCallWithin names items
  | choice alternatives => allCallWithin names alternatives
  | star _ body => body.callsWithin names
  | plus _ body => body.callsWithin names
  | opt body => body.callsWithin names
  | atMost _ body => body.callsWithin names
  | lookahead .. => true
  | skipTo stop => stop.callsWithin names
  | repeatUntil _ stop body => stop.callsWithin names && body.callsWithin names
  | must body => body.callsWithin names
  | rule name => names.contains name
  | ref _ name => names.contains name

/-- Whether all of several patterns use only some rules. -/
def allCallWithin (names : List String) : List Pattern → Bool
  | [] => true
  | item :: items => item.callsWithin names && allCallWithin names items

end

theorem callsWithin_of_mem {names : List String} {items : List Pattern} {item : Pattern}
    (hitems : allCallWithin names items = true) (hmem : item ∈ items) :
    item.callsWithin names = true :=
  forall_mem_of_cons (P := fun items => allCallWithin names items = true)
    (fun _ _ h => by rwa [allCallWithin, Bool.and_eq_true] at h) hitems hmem

end Pattern

/-- A match that begins with some rules only goes on to rules that these lead to. -/
theorem Match.names_within {g : Grammar} {names : List String}
    (hnames : ∀ rule ∈ g.rules, names.contains rule.name = true →
      rule.body.callsWithin names = true)
    {p : Pattern} {s rest : List Char} {parts : List Tree} (h : Match g p s parts rest)
    (hp : p.callsWithin names = true) :
    ∀ n ∈ Tree.nodesOfAll parts, names.contains n.1.name = true := by
  induction h with
  | take => simp [Tree.nodesOfAll, Tree.nodes]
  | stay => simp [Tree.nodesOfAll]
  | seqNil => simp [Tree.nodesOfAll]
  | seqCons _ _ ihfirst ihothers =>
      rw [Pattern.callsWithin, Pattern.allCallWithin, Bool.and_eq_true] at hp
      rw [Tree.nodesOfAll_append, List.forall_mem_append]
      exact ⟨ihfirst hp.1, ihothers hp.2⟩
  | choice hmem _ ih => exact ih (Pattern.callsWithin_of_mem hp hmem)
  | starNil => simp [Tree.nodesOfAll]
  | starCons _ _ ihround ihothers =>
      rw [Tree.nodesOfAll_append, List.forall_mem_append]
      exact ⟨ihround hp, ihothers hp⟩
  | plus _ _ ihround ihothers =>
      rw [Tree.nodesOfAll_append, List.forall_mem_append]
      exact ⟨ihround hp, ihothers hp⟩
  | optNil => simp [Tree.nodesOfAll]
  | opt _ ih => exact ih hp
  | atMostNil => simp [Tree.nodesOfAll]
  | atMostCons _ _ ihround ihothers =>
      rw [Tree.nodesOfAll_append, List.forall_mem_append]
      exact ⟨ihround hp, ihothers hp⟩
  | lookahead => simp [Tree.nodesOfAll]
  | skipHere _ ih => exact ih hp
  | skipPass _ ih => exact ih hp
  | untilHere _ ih =>
      rw [Pattern.callsWithin, Bool.and_eq_true] at hp
      exact ih hp.1
  | untilMore _ _ ihround ihothers =>
      have hboth := hp
      rw [Pattern.callsWithin, Bool.and_eq_true] at hboth
      rw [Tree.nodesOfAll_append, List.forall_mem_append]
      exact ⟨ihround hboth.2, ihothers hp⟩
  | must _ ih => exact ih hp
  | @rule name rule _ _ _ found _ ih =>
      have hname : names.contains rule.name = true := by
        rw [Grammar.name_of_rule? found]
        exact hp
      intro n hn
      simp only [Tree.nodesOfAll, Tree.nodes, List.append_nil, List.mem_cons] at hn
      rcases hn with rfl | hn
      · exact hname
      · exact ih (hnames rule (Grammar.mem_of_rule? found) hname) n hn
  | ref _ ih => exact ih hp

namespace Tree

/-- Whether only the last tree reports from an anchor outside. -/
def opensLast : List Tree → Bool
  | [] => true
  | part :: parts => (parts.isEmpty || !part.opens) && opensLast parts

theorem opensLast_of_closed {parts : List Tree} (h : opensAny parts = false) :
    opensLast parts = true := by
  induction parts with
  | nil => rfl
  | cons part parts ih =>
      rw [opensAny, Bool.or_eq_false_iff] at h
      rw [opensLast, h.1, ih h.2]
      simp

theorem opensLast_append {as bs : List Tree} (has : opensAny as = false)
    (hbs : opensLast bs = true) : opensLast (as ++ bs) = true := by
  induction as with
  | nil => exact hbs
  | cons a as ih =>
      rw [opensAny, Bool.or_eq_false_iff] at has
      rw [List.cons_append, opensLast, has.1, ih has.2]
      simp

end Tree

/-- Only the last tree of a match reports from an anchor outside. -/
theorem Match.opensLast {g : Grammar} (hg : g.Sound) {p : Pattern} {s rest : List Char}
    {parts : List Tree} (h : Match g p s parts rest) (hp : p.sound hg.traits = true) :
    Tree.opensLast parts = true := by
  induction h with
  | take => rfl
  | stay => rfl
  | seqNil => rfl
  | @seqCons item items _ _ _ _ _ first others ihfirst ihothers =>
      simp only [Pattern.sound, Pattern.soundInOrder, Bool.and_eq_true, Bool.or_eq_true,
        Bool.not_eq_true'] at hp
      rcases hp.1.2 with hempty | hclosed
      · obtain rfl := List.isEmpty_iff.mp hempty
        obtain ⟨rfl, -⟩ := seq_nil_iff.mp others
        rw [List.append_nil]
        exact ihfirst hp.1.1
      · exact Tree.opensLast_append (first.opensAny_eq_false hg hclosed) (ihothers hp.2)
  | choice hmem _ ih => exact ih (Pattern.sound_of_mem hp hmem)
  | starNil => rfl
  | starCons round _ _ ihothers =>
      have hbody := hp
      simp only [Pattern.sound, Bool.and_eq_true, Bool.not_eq_true'] at hbody
      exact Tree.opensLast_append (round.opensAny_eq_false hg hbody.1.2) (ihothers hp)
  | plus round _ _ ihothers =>
      have hbody := hp
      simp only [Pattern.sound, Bool.and_eq_true, Bool.not_eq_true'] at hbody
      exact Tree.opensLast_append (round.opensAny_eq_false hg hbody.1.2) (ihothers hp)
  | optNil => rfl
  | opt _ ih => exact ih hp
  | atMostNil => rfl
  | atMostCons round _ _ ihothers =>
      have hbody := hp
      simp only [Pattern.sound, Bool.and_eq_true, Bool.not_eq_true'] at hbody
      exact Tree.opensLast_append (round.opensAny_eq_false hg hbody.1) (ihothers hp)
  | lookahead => rfl
  | skipHere _ ih => exact ih hp
  | skipPass _ ih => simp [Tree.opensLast, Tree.opens, ih hp]
  | untilHere _ ih =>
      simp only [Pattern.sound, Bool.and_eq_true, Bool.not_eq_true'] at hp
      exact ih hp.1.2
  | untilMore round _ _ ihothers =>
      have hbody := hp
      simp only [Pattern.sound, Bool.and_eq_true, Bool.not_eq_true'] at hbody
      exact Tree.opensLast_append (round.opensAny_eq_false hg hbody.1.1.2) (ihothers hp)
  | must _ ih => exact ih hp
  | rule => rfl
  | ref _ ih =>
      simp only [Pattern.sound, Bool.and_eq_true] at hp
      exact ih hp.2

namespace Dialect

open Pattern

variable {dialect : Dialect} {s rest : List Char} {parts : List Tree}

/-- Rules of a dialect with one name are one rule. -/
theorem eq_of_name_eq {rule other : Rule} (hrule : rule ∈ dialect.rules)
    (hother : other ∈ dialect.rules) (hname : rule.name = other.name) : rule = other := by
  have hfound := rule?_grammar hrule
  rw [hname, rule?_grammar hother] at hfound
  exact (Option.some.inj hfound).symm

/-- A rule called by its name gives a node of that rule. -/
theorem of_call {rule : Rule} (hrule : rule ∈ dialect.rules)
    (h : Match dialect.grammar (call rule.name) s parts rest) :
    ∃ inner, parts = [.node rule inner] ∧ Match dialect.grammar rule.body s inner rest :=
  (Match.rule_iff (rule?_grammar hrule)).mp (Match.ref_iff.mp h)

theorem mem_rules_of_mem_nodes {p : Pattern} (h : Match dialect.grammar p s parts rest)
    {n : Rule × List Tree} (hn : n ∈ Tree.nodesOfAll parts) :
    n.1 ∈ dialect.rules ∧ ∃ s rest, Match dialect.grammar n.1.body s n.2 rest := by
  obtain ⟨⟨name, hfound⟩, hmatch⟩ := h.of_mem_nodes n hn
  have hmem := Grammar.mem_of_rule? hfound
  rw [rules_grammar] at hmem
  exact ⟨hmem, hmatch⟩

theorem of_name (h : Match dialect.grammar nameRule.body s parts rest) :
    ∃ taken, parts = [.chars taken] := by
  simp only [nameRule, inOrder, notAhead, identifier] at h
  rw [Match.seq_cons_iff] at h
  obtain ⟨_, _, _, hfirst, hothers, rfl⟩ := h
  obtain ⟨rfl, rfl⟩ := Match.lookahead_iff.mp hfirst
  rw [Match.seq_cons_iff] at hothers
  obtain ⟨_, _, _, hword, hnil, rfl⟩ := hothers
  obtain ⟨rfl, rfl⟩ := Match.seq_nil_iff.mp hnil
  cases hword with
  | take => exact ⟨_, rfl⟩
  | stay hscan => cases Terminal.nullable_of_stay hscan

theorem of_operatorNotEqual (h : Match dialect.grammar operatorNotEqual.body s parts rest) :
    parts = [.chars ['!', '=']] :=
  (Match.of_literal h).1

theorem of_operatorsReassign (h : Match dialect.grammar operatorsReassign.body s parts rest) :
    ∃ c, Desugar.operators.contains c = true ∧ parts = [.chars [c, '=']] := by
  obtain ⟨item, hitem, hmatch⟩ := Match.choice_iff.mp h
  obtain ⟨operator, hoperator, rfl⟩ := List.mem_map.mp hitem
  obtain ⟨rfl, -⟩ := Match.of_literal hmatch
  simp only [reassignmentOperators, List.mem_cons, List.not_mem_nil, or_false] at hoperator
  rcases hoperator with rfl | rfl | rfl | rfl | rfl
  · exact ⟨'+', rfl, rfl⟩
  · exact ⟨'-', rfl, rfl⟩
  · exact ⟨'*', rfl, rfl⟩
  · exact ⟨'/', rfl, rfl⟩
  · exact ⟨'%', rfl, rfl⟩

theorem of_reassignment (h : Match pico8.grammar reassignment.body s parts rest) :
    ∃ operator others, parts = .node operatorsReassign operator :: others ∧
      (∃ s rest, Match pico8.grammar operatorsReassign.body s operator rest) := by
  simp only [reassignment, inOrder] at h
  rw [Match.seq_cons_iff] at h
  obtain ⟨_, _, others, hfirst, -, rfl⟩ := h
  have hmem : operatorsReassign ∈ rules pico8 := by
    simp [rules, chainStatementRules, extension]
  obtain ⟨operator, rfl, hoperator⟩ := of_call hmem hfirst
  exact ⟨operator, others, rfl, _, _, hoperator⟩

theorem of_bracketExpr (h : Match dialect.grammar bracketExpr.body s parts rest) :
    ∃ others, parts = .chars ['('] :: others := by
  simp only [bracketExpr, ifMust, one] at h
  rw [Match.seq_cons_iff] at h
  obtain ⟨_, _, others, hfirst, -, rfl⟩ := h
  obtain ⟨c, hc, rfl, -⟩ := Match.of_oneOf hfirst
  simp at hc
  exact ⟨others, by rw [hc]; rfl⟩

theorem of_keyRule {word : String} (h : Match dialect.grammar (keyRule word).body s parts rest) :
    parts = [.chars word.toList] := by
  simp only [keyRule, inOrder, wordEnd, notAhead] at h
  rw [Match.seq_cons_iff] at h
  obtain ⟨_, _, _, hfirst, hothers, rfl⟩ := h
  obtain ⟨rfl, -⟩ := Match.of_literal hfirst
  rw [Match.seq_cons_iff] at hothers
  obtain ⟨_, _, _, hend, hnil, rfl⟩ := hothers
  obtain ⟨rfl, rfl⟩ := Match.lookahead_iff.mp hend
  obtain ⟨rfl, -⟩ := Match.seq_nil_iff.mp hnil
  rfl

theorem of_shortIfStatement (h : Match pico8.grammar shortIfStatement.body s parts rest) :
    ∃ others, parts = .node (keyRule "if") [.chars ['i', 'f']] :: others := by
  simp only [shortIfStatement, inOrder] at h
  rw [Match.seq_cons_iff] at h
  obtain ⟨_, _, others, hfirst, -, rfl⟩ := h
  have hmem : keyRule "if" ∈ rules pico8 := by simp [rules, lexicalRules, keywords]
  obtain ⟨inner, rfl, hinner⟩ := of_call hmem hfirst
  rw [of_keyRule hinner]
  exact ⟨others, rfl⟩

/-- A statement that begins with a chain has a name or a bracket for a head. -/
theorem of_chainStatement (h : Match dialect.grammar chainStatement.body s parts rest) :
    ∃ head inner others, (head = nameRule ∨ head = bracketExpr) ∧
      parts = .node head inner :: others ∧
      (∃ s rest, Match dialect.grammar head.body s inner rest) := by
  obtain ⟨item, hitem, hmatch⟩ := Match.choice_iff.mp h
  simp only [List.mem_cons, List.not_mem_nil, or_false] at hitem
  have hname : nameRule ∈ dialect.rules := by simp [rules, lexicalRules]
  have hbracket : bracketExpr ∈ dialect.rules := by simp [rules, valueRules]
  rcases hitem with rfl | rfl
  · rw [inOrder, Match.seq_cons_iff] at hmatch
    · obtain ⟨_, _, others, hfirst, -, rfl⟩ := hmatch
      obtain ⟨inner, rfl, hinner⟩ := of_call hname hfirst
      exact ⟨nameRule, inner, others, .inl rfl, rfl, _, _, hinner⟩
    · simp
  · rw [inOrder, Match.seq_cons_iff] at hmatch
    · obtain ⟨_, _, others, hfirst, -, rfl⟩ := hmatch
      obtain ⟨inner, rfl, hinner⟩ := of_call hbracket hfirst
      exact ⟨bracketExpr, inner, others, .inr rfl, rfl, _, _, hinner⟩
    · simp

end Dialect

end CartLua
