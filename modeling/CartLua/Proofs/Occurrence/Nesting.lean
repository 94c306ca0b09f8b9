import CartLua.Proofs.Derivation.TreeShapes

/-!
# How occurrences lie

Two occurrences of a derivation are apart, or one lies inside the other, and inside a
compound assignment it lies on one side of the operator.  The first holds of any two
trees in a row; the second is due to how the rules of the dialect begin: a compound
assignment begins with its operator, a short `if` with its keyword, and a chain with a
name or a bracket, in which no occurrence begins.
-/

namespace CartLua

open Dialect

/-- Whether a capture shows an occurrence of the dialect. -/
def Capture.isOccurrence (c : Capture) : Bool := (OccurrenceKind.ofName? c.rule).isSome

theorem Capture.isOccurrence_of_rule_eq {c : Capture} {kind : OccurrenceKind}
    (h : c.rule = kind.name) : c.isOccurrence = true := by
  rw [isOccurrence, h, OccurrenceKind.ofName?_name]
  rfl

/-- Whether an occurrence lies inside a later one of a derivation. -/
structure Capture.Inside (c d : Capture) : Prop where
  start_lt : d.start < c.start
  tokenEnd_le : c.tokenEnd ≤ d.tokenEnd
  not_notEqual : d.rule ≠ OccurrenceKind.notEqual.name
  beside : d.rule = OccurrenceKind.reassignment.name →
    c.tokenEnd ≤ d.ruleStart ∨ d.ruleStart + 2 ≤ c.start

/-- Whether an occurrence ends before a later one of a derivation or lies inside it. -/
def Capture.Apart (c d : Capture) : Prop := c.tokenEnd ≤ d.start ∨ c.Inside d

namespace Walk

/-- A reader outside padding and quiet rules. -/
structure Plain (w : Walk) : Prop where
  padding : w.padding = 0
  quiet : w.quiet = 0
  tokenEnd_le : w.tokenEnd ≤ w.offset
  anchored : w.Anchored

mutual

/-- Outside and inside padding the end of the last token never goes back, and lies
before the place. -/
theorem tokenEnd_pass {w : Walk} (hw : w.tokenEnd ≤ w.offset) : (t : Tree) →
    w.tokenEnd ≤ (w.pass t).tokenEnd ∧ (w.pass t).tokenEnd ≤ (w.pass t).offset
  | .chars taken => by
      simp only [pass, advance]
      split <;> constructor <;> omega
  | .node rule parts => by
      have hparts := tokenEnd_passAll (w := w.enter rule) hw parts
      exact hparts

theorem tokenEnd_passAll {w : Walk} (hw : w.tokenEnd ≤ w.offset) : (parts : List Tree) →
    w.tokenEnd ≤ (w.passAll parts).tokenEnd ∧
      (w.passAll parts).tokenEnd ≤ (w.passAll parts).offset
  | [] => ⟨Nat.le_refl _, hw⟩
  | part :: parts => by
      have hpart := tokenEnd_pass hw part
      have hparts := tokenEnd_passAll hpart.2 parts
      exact ⟨Nat.le_trans hpart.1 hparts.1, hparts.2⟩

end

theorem Plain.pass {w : Walk} (hw : w.Plain) (t : Tree) : (w.pass t).Plain where
  padding := by rw [padding_pass, hw.padding]
  quiet := by rw [quiet_pass, hw.quiet]
  tokenEnd_le := (tokenEnd_pass hw.tokenEnd_le t).2
  anchored := hw.anchored.pass t

/-- The occurrences of some trees, in the order in which they end. -/
def occurrences (w : Walk) (parts : List Tree) : List Capture :=
  (w.capturesOfAll parts).filter Capture.isOccurrence

@[simp]
theorem occurrences_nil (w : Walk) : w.occurrences [] = [] := rfl

theorem occurrences_cons (w : Walk) (part : Tree) (parts : List Tree) :
    w.occurrences (part :: parts) = w.occurrences [part] ++ (w.pass part).occurrences parts := by
  simp [occurrences, capturesOfAll]

@[simp]
theorem occurrences_chars (w : Walk) (taken : List Char) :
    w.occurrences [.chars taken] = [] := rfl

theorem occurrences_node {w : Walk} (hw : w.quiet = 0) (rule : Rule) (parts : List Tree) :
    w.occurrences [.node rule parts] = (w.enter rule).occurrences parts ++
      [(w.pass (.node rule parts)).capture rule w.offset].filter Capture.isOccurrence := by
  simp [occurrences, capturesOfAll, captures, hw]

/-- No occurrence is found where no rule is one. -/
theorem occurrences_eq_nil {w : Walk} (hw : w.Anchored) {parts : List Tree}
    (hparts : ∀ n ∈ Tree.nodesOfAll parts, OccurrenceKind.ofName? n.1.name = none) :
    w.occurrences parts = [] := by
  rw [occurrences, List.filter_eq_nil_iff]
  intro c hc
  obtain ⟨n, hn, _, _, -, hshows⟩ := node_of_mem_capturesOfAll hw parts c hc
  rw [Capture.isOccurrence, hshows.rule_eq, hparts n hn]
  exact Bool.false_ne_true

/-- How the occurrences of some trees lie. -/
structure Nested (w : Walk) (parts : List Tree) : Prop where
  sizes : ∀ c ∈ w.occurrences parts, c.start < c.tokenEnd ∧
    c.tokenEnd ≤ (w.passAll parts).tokenEnd
  operators : ∀ c ∈ w.occurrences parts, c.rule = OccurrenceKind.reassignment.name →
    c.start < c.ruleStart ∧ c.ruleStart + 2 ≤ c.tokenEnd
  apart : (w.occurrences parts).Pairwise Capture.Apart

theorem Nested.of_eq_nil {w : Walk} {parts : List Tree} (h : w.occurrences parts = []) :
    w.Nested parts := by
  constructor <;> rw [h]
  · simp
  · simp
  · exact List.Pairwise.nil

end Walk

/-- Trees that come from a text of the dialect. -/
def Tree.Derived (parts : List Tree) : Prop :=
  ∀ n ∈ Tree.nodesOfAll parts, n.1 ∈ rules pico8 ∧
    ∃ s rest, Match pico8.grammar n.1.body s n.2 rest

namespace Dialect

/-- The rules inside padding. -/
def paddingRules : List String :=
  ["sep", "seps", "inline_space", "comment", "long_string", "short_comment"]

/-- What is known of a rule by its name: only those of padding are padding or quiet and
they lead to no others, only a statement that begins with a chain is an anchor, and only
a compound assignment reports from one. -/
def marked (rule : Rule) : Bool :=
  (!(rule.padding || rule.quiet) || paddingRules.contains rule.name) &&
    (!paddingRules.contains rule.name || rule.body.callsWithin paddingRules) &&
    (!rule.anchor || rule.name == chainStatement.name) &&
    (!rule.anchored || rule.name == reassignment.name)

theorem marked_rules : (rules pico8).all marked = true := by
  decide

variable {rule : Rule} (hrule : rule ∈ rules pico8)

include hrule

theorem padding_of_mem (h : (rule.padding || rule.quiet) = true) :
    paddingRules.contains rule.name = true := by
  have hmarked := List.all_eq_true.mp marked_rules rule hrule
  simp only [marked, Bool.and_eq_true] at hmarked
  rw [h] at hmarked
  simpa using hmarked.1.1.1

theorem callsWithin_of_mem (h : paddingRules.contains rule.name = true) :
    rule.body.callsWithin paddingRules = true := by
  have hmarked := List.all_eq_true.mp marked_rules rule hrule
  simp only [marked, Bool.and_eq_true] at hmarked
  rw [h] at hmarked
  simpa using hmarked.1.1.2

theorem anchor_of_mem (h : rule.anchor = true) : rule.name = chainStatement.name := by
  have hmarked := List.all_eq_true.mp marked_rules rule hrule
  simp only [marked, Bool.and_eq_true] at hmarked
  rw [h] at hmarked
  simpa using hmarked.1.2

theorem anchored_of_mem (h : rule.anchored = true) : rule.name = reassignment.name := by
  have hmarked := List.all_eq_true.mp marked_rules rule hrule
  simp only [marked, Bool.and_eq_true] at hmarked
  rw [h] at hmarked
  simpa using hmarked.2

end Dialect

namespace Walk

variable {w : Walk}

/-- Trees in a row, when a capture from the beginning of the chain reaches over what
comes before it in the chain. -/
theorem Nested.cons (hw : w.Plain) {part : Tree} {parts : List Tree}
    (hderived : Tree.Derived parts) (hpart : w.Nested [part]) (hparts : (w.pass part).Nested parts)
    (hhead : Tree.opensAny parts = true → ∀ a as, w.anchors = a :: as →
      ∀ c ∈ w.occurrences [part], (a : Int) < c.start) :
    w.Nested (part :: parts) := by
  have hover := tokenEnd_pass hw.tokenEnd_le part
  have hall := tokenEnd_passAll hover.2 parts
  constructor <;> rw [occurrences_cons]
  · intro c hc
    rcases List.mem_append.mp hc with hc | hc
    · have hsize := hpart.sizes c hc
      simp only [passAll] at hsize ⊢
      exact ⟨hsize.1, by omega⟩
    · exact hparts.sizes c hc
  · intro c hc
    rcases List.mem_append.mp hc with hc | hc
    · exact hpart.operators c hc
    · exact hparts.operators c hc
  · apply List.pairwise_append.mpr ⟨hpart.apart, hparts.apart, _⟩
    intro c hc d hd
    have hsize := hpart.sizes c hc
    simp only [passAll] at hsize
    have hmem := (List.mem_filter.mp hd).1
    have hbegin := (bounds_of_mem_capturesOfAll (hw.pass part).anchored hmem).1
    rcases start_of_mem_capturesOfAll parts d hmem with
      hstart | ⟨hopens, a, as, hanchors, hstart, n, hn, hanchored, hname⟩
    · exact .inl (by omega)
    · rw [anchors_pass] at hanchors
      have hlt := hhead hopens a as hanchors c hc
      have hrule : d.rule = OccurrenceKind.reassignment.name :=
        hname.trans (anchored_of_mem (hderived n hn).1 hanchored)
      have hoperator := hparts.operators d hd hrule
      apply Or.inr
      constructor
      · omega
      · omega
      · rw [hrule]
        decide
      · intro _
        exact .inl (by omega)

/-- A rule that has no mark of its own adds nothing to its parts. -/
theorem Nested.node (hw : w.Plain) {rule : Rule} {parts : List Tree}
    (hname : OccurrenceKind.ofName? rule.name = none) (hparts : (w.enter rule).Nested parts) :
    w.Nested [.node rule parts] := by
  have hoccurrences : w.occurrences [.node rule parts] = (w.enter rule).occurrences parts := by
    rw [occurrences_node hw.quiet, List.filter_cons_of_neg, List.filter_nil, List.append_nil]
    simp [Capture.isOccurrence, Walk.capture, Capture.ofSpan, hname]
  constructor <;> rw [hoccurrences]
  · exact hparts.sizes
  · exact hparts.operators
  · exact hparts.apart

theorem Plain.enter (hw : w.Plain) {rule : Rule} (hpadding : rule.padding = false)
    (hquiet : rule.quiet = false) : (w.enter rule).Plain where
  padding := by simp [Walk.enter, hpadding, hw.padding]
  quiet := by simp [Walk.enter, hquiet, hw.quiet]
  tokenEnd_le := hw.tokenEnd_le
  anchored := hw.anchored.enter rule

/-- What a rule captures at its end has the last token of its node. -/
theorem tokenEnd_capture (hw : w.Plain) {rule : Rule} {parts : List Tree}
    (htaken : w.offset ≤ (w.pass (.node rule parts)).tokenEnd) :
    ((w.pass (.node rule parts)).capture rule w.offset).tokenEnd =
      (w.pass (.node rule parts)).tokenEnd := by
  have hstart := (shows_capture hw.anchored rule parts).start_le
  have hlast := (tokenEnd_pass hw.tokenEnd_le (.node rule parts)).2
  change ((w.pass (.node rule parts)).capture rule w.offset).start ≤ (w.offset : Int) at hstart
  change max ((w.pass (.node rule parts)).capture rule w.offset).start
    (min ((w.pass (.node rule parts)).tokenEnd : Int) (w.pass (.node rule parts)).offset) = _
  omega

/-- A rule that captures an occurrence of its own, inside which all those of its parts
lie. -/
theorem Nested.own (hw : w.Plain) {rule : Rule} {parts : List Tree}
    (hparts : (w.enter rule).Nested parts)
    (htaken : w.offset < (w.pass (.node rule parts)).tokenEnd)
    (hinside : ∀ c ∈ (w.enter rule).occurrences parts,
      c.Inside ((w.pass (.node rule parts)).capture rule w.offset))
    (hoperator : rule.name = OccurrenceKind.reassignment.name →
      ((w.pass (.node rule parts)).capture rule w.offset).start < w.offset ∧
        w.offset + 2 ≤ (w.pass (.node rule parts)).tokenEnd) :
    w.Nested [.node rule parts] := by
  have hstart := (shows_capture hw.anchored rule parts).start_le
  have hbegin := (shows_capture hw.anchored rule parts).ruleStart_eq
  have htokenEnd := tokenEnd_capture hw (Nat.le_of_lt htaken)
  constructor <;> rw [occurrences_node hw.quiet]
  · intro c hc
    rcases List.mem_append.mp hc with hc | hc
    · exact hparts.sizes c hc
    · rw [List.mem_singleton.mp (List.mem_filter.mp hc).1, htokenEnd]
      exact ⟨by omega, Int.le_refl _⟩
  · intro c hc hreassignment
    rcases List.mem_append.mp hc with hc | hc
    · exact hparts.operators c hc hreassignment
    · rw [List.mem_singleton.mp (List.mem_filter.mp hc).1] at hreassignment ⊢
      have hbeside := hoperator hreassignment
      omega
  · apply List.pairwise_append.mpr ⟨hparts.apart, (List.pairwise_singleton _ _).filter _, _⟩
    intro c hc d hd
    rw [List.mem_singleton.mp (List.mem_filter.mp hd).1]
    exact .inr (hinside c hc)

/-- An occurrence that begins with a token of two characters, and all of whose inner
occurrences come after that. -/
theorem Nested.occurrence (hw : w.Plain) {rule token : Rule} {taken : List Char}
    {others : List Tree} (hpadding : rule.padding = false) (hquiet : rule.quiet = false)
    (htaken : taken.length = 2) (htoken : OccurrenceKind.ofName? token.name = none)
    (htokenPadding : token.padding = false) (hne : rule.name ≠ OccurrenceKind.notEqual.name)
    (hothers : ((w.enter rule).pass (.node token [.chars taken])).Nested others)
    (hclosed : Tree.opensAny others = false)
    (hstart : rule.name = OccurrenceKind.reassignment.name →
      (if rule.anchored then w.anchors.headD w.offset else w.offset) < w.offset) :
    w.Nested [.node rule (.node token [.chars taken] :: others)] := by
  have henter := hw.enter hpadding hquiet
  have hfirst : (w.enter rule).occurrences [.node token [.chars taken]] = [] := by
    rw [occurrences_node henter.quiet, List.filter_cons_of_neg, List.filter_nil]
    · simp
    · simp [Capture.isOccurrence, Walk.capture, Capture.ofSpan, htoken]
  have hoccurrences : (w.enter rule).occurrences (.node token [.chars taken] :: others) =
      ((w.enter rule).pass (.node token [.chars taken])).occurrences others := by
    rw [occurrences_cons, hfirst, List.nil_append]
  have hsecond : ((w.enter rule).pass (.node token [.chars taken])).tokenEnd = w.offset + 2 ∧
      ((w.enter rule).pass (.node token [.chars taken])).offset = w.offset + 2 := by
    simp [Walk.pass, passAll, advance, Walk.enter, Walk.leave, hpadding, htokenPadding, htaken,
      hw.padding]
  have hlast := tokenEnd_passAll (Nat.le_of_eq (hsecond.1.trans hsecond.2.symm)) others
  have hlength : w.offset + 2 ≤
      (w.pass (.node rule (.node token [.chars taken] :: others))).tokenEnd :=
    hsecond.1 ▸ hlast.1
  have hparts : (w.enter rule).Nested (.node token [.chars taken] :: others) := by
    constructor <;> rw [hoccurrences]
    · exact hothers.sizes
    · exact hothers.operators
    · exact hothers.apart
  have hshows := shows_capture hw.anchored rule (.node token [.chars taken] :: others)
  have htokenEnd := tokenEnd_capture hw (Nat.le_of_add_right_le hlength)
  have hbegin := hshows.start_le
  rw [hshows.ruleStart_eq] at hbegin
  apply Nested.own hw hparts (Nat.lt_of_lt_of_le (Nat.lt_add_of_pos_right Nat.two_pos) hlength)
  · intro c hc
    rw [hoccurrences] at hc
    have hafter := le_start_of_mem_capturesOfAll hclosed (List.mem_filter.mp hc).1
    have hsize := (hothers.sizes c hc).2
    rw [hsecond.2] at hafter
    constructor
    · omega
    · rw [htokenEnd]
      exact hsize
    · exact hne
    · intro _
      rw [hshows.ruleStart_eq]
      exact .inr (by omega)
  · intro hreassignment
    rw [start_capture, anchors_pass]
    exact ⟨Int.ofNat_lt.mpr (hstart hreassignment), hlength⟩

/-- The comparison of the dialect, which has no parts but its characters. -/
theorem nested_notEqual (hw : w.Plain) :
    w.Nested [.node operatorNotEqual [.chars ['!', '=']]] := by
  have htokenEnd : (w.pass (.node operatorNotEqual [.chars ['!', '=']])).tokenEnd =
      w.offset + 2 := by
    simp [Walk.pass, passAll, advance, Walk.enter, Walk.leave, operatorNotEqual, hw.padding]
  apply Nested.own hw (.of_eq_nil rfl)
  · omega
  · intro c hc
    cases hc
  · intro hrule
    exact absurd hrule (by decide)

/-- A statement that begins with a chain: only a compound assignment begins where the
chain does, since no occurrence begins with its head. -/
theorem nested_chainStatement (hw : w.Plain) {head : Rule} {inner others : List Tree}
    (hderived : Tree.Derived others) (hhead : (w.enter chainStatement).Nested [.node head inner])
    (hstarts : ∀ c ∈ (w.enter chainStatement).occurrences [.node head inner],
      (w.offset : Int) < c.start)
    (hothers : ((w.enter chainStatement).pass (.node head inner)).Nested others) :
    w.Nested [.node chainStatement (.node head inner :: others)] := by
  apply Nested.node hw (by decide)
  apply Nested.cons (hw.enter rfl rfl) hderived hhead hothers
  intro _ a as hanchors c hc
  simp only [Walk.enter, chainStatement, if_true] at hanchors
  cases hanchors
  exact hstarts c hc

end Walk

namespace Tree

theorem Derived.head {part : Tree} {parts : List Tree} (h : Derived (part :: parts)) :
    Derived [part] := by
  intro n hn
  apply h n
  rw [nodesOfAll, nodesOfAll, List.append_nil] at hn
  exact List.mem_append_left _ hn

theorem Derived.tail {part : Tree} {parts : List Tree} (h : Derived (part :: parts)) :
    Derived parts :=
  fun n hn => h n (List.mem_append_right _ hn)

theorem Derived.inner {rule : Rule} {parts : List Tree} (h : Derived [.node rule parts]) :
    Derived parts :=
  fun n hn => h n (by simp [nodesOfAll, nodes, hn])

theorem Derived.node {rule : Rule} {parts : List Tree} (h : Derived [.node rule parts]) :
    rule ∈ rules pico8 ∧ ∃ s rest, Match pico8.grammar rule.body s parts rest :=
  h (rule, parts) (by simp [nodesOfAll, nodes])

end Tree

theorem Match.derived {p : Pattern} {s rest : List Char} {parts : List Tree}
    (h : Match pico8.grammar p s parts rest) : Tree.Derived parts :=
  fun _ hn => mem_rules_of_mem_nodes h hn

namespace Dialect

theorem opensLast_of_match {rule : Rule} (hrule : rule ∈ rules pico8) {s rest : List Char}
    {parts : List Tree} (h : Match pico8.grammar rule.body s parts rest) :
    Tree.opensLast parts = true :=
  h.opensLast (recordable pico8).toSound
    ((recordable pico8).sound rule (by rw [rules_grammar]; exact hrule))

/-- Inside padding there are only rules of padding. -/
theorem names_of_padding {rule : Rule} {parts : List Tree}
    (hderived : Tree.Derived [.node rule parts])
    (hpadding : paddingRules.contains rule.name = true) :
    ∀ n ∈ Tree.nodesOfAll [.node rule parts], paddingRules.contains n.1.name = true := by
  obtain ⟨hrule, s, rest, hmatch⟩ := hderived.node
  have hinner : ∀ n ∈ Tree.nodesOfAll parts, paddingRules.contains n.1.name = true :=
    hmatch.names_within
      (fun other hother hname => callsWithin_of_mem (rules_grammar pico8 ▸ hother) hname)
      (callsWithin_of_mem hrule hpadding)
  intro n hn
  simp only [Tree.nodesOfAll, Tree.nodes, List.append_nil, List.mem_cons] at hn
  rcases hn with rfl | hn
  · exact hpadding
  · exact hinner n hn

/-- No rule of padding is an extension. -/
theorem ofName?_of_mem_paddingRules {name : String} (h : paddingRules.contains name = true) :
    OccurrenceKind.ofName? name = none := by
  simp only [paddingRules, List.contains_eq_mem, List.mem_cons, List.not_mem_nil, or_false,
    decide_eq_true_eq] at h
  rcases h with rfl | rfl | rfl | rfl | rfl | rfl <;> decide

/-- Inside padding there are no occurrences. -/
theorem occurrences_of_padding {w : Walk} (hw : w.Anchored) {rule : Rule} {parts : List Tree}
    (hderived : Tree.Derived [.node rule parts])
    (hpadding : paddingRules.contains rule.name = true) :
    w.occurrences [.node rule parts] = [] :=
  Walk.occurrences_eq_nil hw fun n hn =>
    ofName?_of_mem_paddingRules (names_of_padding hderived hpadding n hn)

theorem closed_of_match (rule : Rule)
    (hrule : rule.body.opens (traits pico8).opening = false) {s rest : List Char}
    {parts : List Tree} (h : Match pico8.grammar rule.body s parts rest) :
    Tree.opensAny parts = false :=
  h.opensAny_eq_false (recordable pico8).toSound hrule

theorem text_ne_nil_of_match (rule : Rule)
    (hrule : rule.body.nullable (traits pico8).nullable = false) {s rest : List Char}
    {parts : List Tree} (h : Match pico8.grammar rule.body s parts rest) :
    Tree.textOfAll parts ≠ [] :=
  h.text_ne_nil (recordable pico8).toSound hrule

/-- The head of a chain: no occurrence begins with it. -/
theorem start_lt_of_head {w : Walk} (hw : w.Plain) {head : Rule} {inner : List Tree}
    (hhead : head = nameRule ∨ head = bracketExpr) {s rest : List Char}
    (hmatch : Match pico8.grammar head.body s inner rest) :
    (Tree.node head inner).text ≠ [] ∧ (Tree.node head inner).opens = false ∧
      ∀ c ∈ w.occurrences [.node head inner], (w.offset : Int) < c.start := by
  rcases hhead with rfl | rfl
  · have htext := text_ne_nil_of_match nameRule rfl hmatch
    obtain ⟨taken, rfl⟩ := of_name hmatch
    have hempty : w.occurrences [.node nameRule [.chars taken]] = [] :=
      Walk.occurrences_eq_nil hw.anchored (by simp [Tree.nodesOfAll, Tree.nodes]; decide)
    exact ⟨htext, rfl, by simp [hempty]⟩
  · have hclosed := closed_of_match bracketExpr rfl hmatch
    obtain ⟨others, rfl⟩ := of_bracketExpr hmatch
    refine ⟨by simp [Tree.text, Tree.textOfAll], by simp [Tree.opens, hclosed, bracketExpr], ?_⟩
    intro c hc
    rw [Walk.occurrences_node hw.quiet, Walk.occurrences_cons, Walk.occurrences_chars,
      List.nil_append, List.filter_cons_of_neg, List.filter_nil, List.append_nil] at hc
    · rw [Tree.opensAny, Bool.or_eq_false_iff] at hclosed
      have hle := Walk.le_start_of_mem_capturesOfAll hclosed.2 (List.mem_filter.mp hc).1
      have hoffset : ((w.enter bracketExpr).pass (.chars ['('])).offset = w.offset + 1 := rfl
      omega
    · simp [Capture.isOccurrence, Walk.capture, Capture.ofSpan, bracketExpr]
      decide

/-- Whether trees of the dialect below a size are nested.  Where they report from an anchor
outside, that anchor lies before them. -/
def NestedBelow (size : Nat) : Prop :=
  ∀ (w : Walk) (parts : List Tree), w.Plain → sizeOf parts < size → Tree.Derived parts →
    Tree.opensLast parts = true →
    (Tree.opensAny parts = true → ∃ a as, w.anchors = a :: as ∧ a < w.offset) → w.Nested parts

variable {size : Nat} {w : Walk}

/-- Trees that report from no anchor outside need none. -/
theorem NestedBelow.of_closed (ih : NestedBelow size) (hw : w.Plain) {parts : List Tree}
    (hsize : sizeOf parts < size) (hderived : Tree.Derived parts)
    (hclosed : Tree.opensAny parts = false) : w.Nested parts := by
  apply ih w parts hw hsize hderived (Tree.opensLast_of_closed hclosed)
  intro hopens
  rw [hclosed] at hopens
  cases hopens

/-- A rule that records an occurrence, when smaller trees are nested. -/
theorem NestedBelow.occurrence (ih : NestedBelow size) (hw : w.Plain) {rule : Rule}
    {inner : List Tree} (hsize : sizeOf inner < size) (hderived : Tree.Derived [.node rule inner])
    (hanchor : (Tree.node rule inner).opens = true → ∃ a as, w.anchors = a :: as ∧ a < w.offset)
    {kind : OccurrenceKind} (hkind : rule.name = kind.name) : w.Nested [.node rule inner] := by
  obtain ⟨hrule, s, rest, hmatch⟩ := hderived.node
  cases kind with
  | notEqual =>
      obtain rfl : rule = operatorNotEqual :=
        eq_of_name_eq hrule (by simp [rules, tierRules, extension]) hkind
      rw [of_operatorNotEqual hmatch]
      exact Walk.nested_notEqual hw
  | reassignment =>
      obtain rfl : rule = reassignment :=
        eq_of_name_eq hrule (by simp [rules, chainStatementRules, extension]) hkind
      have hclosed := closed_of_match reassignment (by decide) hmatch
      obtain ⟨operator, others, rfl, _, _, hoperator⟩ := of_reassignment hmatch
      obtain ⟨c, -, rfl⟩ := of_operatorsReassign hoperator
      rw [Tree.opensAny, Bool.or_eq_false_iff] at hclosed
      simp only [List.cons.sizeOf_spec] at hsize
      have henter : (w.enter reassignment).Plain := hw.enter rfl rfl
      have hothers := ih.of_closed (henter.pass (.node operatorsReassign [.chars [c, '=']]))
        (by omega) hderived.inner.tail hclosed.2
      apply Walk.Nested.occurrence hw rfl rfl rfl (by decide) rfl (by decide) hothers hclosed.2
      intro _
      obtain ⟨a, as, hanchors, hlt⟩ := hanchor rfl
      simpa [reassignment, hanchors] using hlt
  | shortIf =>
      obtain rfl : rule = shortIfStatement :=
        eq_of_name_eq hrule (by simp [rules, blockRules, extension]) hkind
      have hclosed := closed_of_match shortIfStatement (by decide) hmatch
      obtain ⟨others, rfl⟩ := of_shortIfStatement hmatch
      rw [Tree.opensAny, Bool.or_eq_false_iff] at hclosed
      simp only [List.cons.sizeOf_spec] at hsize
      have henter : (w.enter shortIfStatement).Plain := hw.enter rfl rfl
      have hothers := ih.of_closed (henter.pass (.node (keyRule "if") [.chars ['i', 'f']]))
        (by omega) hderived.inner.tail hclosed.2
      apply Walk.Nested.occurrence hw rfl rfl rfl (by decide) rfl (by decide) hothers hclosed.2
      intro hname
      exact absurd hname (by decide)

/-- A statement that begins with a chain, when smaller trees are nested. -/
theorem NestedBelow.chain (ih : NestedBelow size) (hw : w.Plain) {inner : List Tree}
    (hsize : sizeOf inner < size) (hderived : Tree.Derived [.node chainStatement inner]) :
    w.Nested [.node chainStatement inner] := by
  obtain ⟨hrule, s, rest, hmatch⟩ := hderived.node
  have henter : (w.enter chainStatement).Plain := hw.enter rfl rfl
  have hlast := opensLast_of_match hrule hmatch
  obtain ⟨head, first, others, hhead, rfl, _, _, hfirst⟩ := of_chainStatement hmatch
  obtain ⟨htext, hheadClosed, hstarts⟩ := start_lt_of_head henter hhead hfirst
  have hpos := List.length_pos_iff.mpr htext
  rw [Tree.opensLast, Bool.and_eq_true] at hlast
  simp only [List.cons.sizeOf_spec] at hsize
  have hsizeOthers : 1 ≤ sizeOf others := by
    cases others <;> simp only [List.cons.sizeOf_spec, List.nil.sizeOf_spec] <;> omega
  have hheadNested : (w.enter chainStatement).Nested [.node head first] := by
    apply ih.of_closed henter _ hderived.inner.head (by simp [Tree.opensAny, hheadClosed])
    simp only [List.cons.sizeOf_spec, List.nil.sizeOf_spec]
    omega
  have hothers : ((w.enter chainStatement).pass (.node head first)).Nested others := by
    apply ih _ _ (henter.pass _) (by omega) hderived.inner.tail hlast.2
    intro _
    have hlt : w.offset < ((w.enter chainStatement).pass (.node head first)).offset := by
      rw [Walk.offset_pass]
      exact Nat.lt_add_of_pos_right hpos
    exact ⟨w.offset, w.anchors, by rw [Walk.anchors_pass]; rfl, hlt⟩
  exact Walk.nested_chainStatement hw hderived.inner.tail hheadNested hstarts hothers

/-- A rule in a derivation of the dialect, when smaller trees are nested. -/
theorem NestedBelow.node (ih : NestedBelow size) (hw : w.Plain) {rule : Rule} {inner : List Tree}
    (hsize : sizeOf inner < size) (hderived : Tree.Derived [.node rule inner])
    (hanchor : (Tree.node rule inner).opens = true → ∃ a as, w.anchors = a :: as ∧ a < w.offset) :
    w.Nested [.node rule inner] := by
  obtain ⟨hrule, s, rest, hmatch⟩ := hderived.node
  by_cases hpadded : paddingRules.contains rule.name = true
  · exact .of_eq_nil (occurrences_of_padding hw.anchored hderived hpadded)
  have hplain : (rule.padding || rule.quiet) = false :=
    Bool.eq_false_iff.mpr fun h => hpadded (padding_of_mem hrule h)
  obtain ⟨hpadding, hquiet⟩ := Bool.or_eq_false_iff.mp hplain
  cases hkind : OccurrenceKind.ofName? rule.name with
  | some kind =>
      exact ih.occurrence hw hsize hderived hanchor (Recorder.ofName?_eq_some.mp hkind)
  | none =>
      by_cases hanchorRule : rule.anchor = true
      · obtain rfl : rule = chainStatement :=
          eq_of_name_eq hrule (by simp [rules, chainStatementRules])
            (anchor_of_mem hrule hanchorRule)
        exact ih.chain hw hsize hderived
      · have hanchored : rule.anchored = false := by
          apply Bool.eq_false_iff.mpr
          intro h
          rw [anchored_of_mem hrule h] at hkind
          exact absurd hkind (by decide)
        apply Walk.Nested.node hw hkind
        apply ih _ _ (hw.enter hpadding hquiet) hsize hderived.inner
          (opensLast_of_match hrule hmatch)
        intro hopens
        obtain ⟨a, as, hanchors, hlt⟩ := hanchor (by simp [Tree.opens, hopens, hanchorRule])
        exact ⟨a, as, by simp [Walk.enter, hanchorRule, hanchors], hlt⟩

/-- The occurrences of a derivation of the dialect are apart or nested.  The induction is
on the size of the trees. -/
theorem nestedBelow (size : Nat) : NestedBelow size := by
  induction size with
  | zero =>
      intro w parts _ hsize
      exact absurd hsize (Nat.not_lt_zero _)
  | succ size ih =>
      intro w parts hw hsize hderived hlast hanchor
      cases parts with
      | nil => exact .of_eq_nil rfl
      | cons part parts =>
          simp only [List.cons.sizeOf_spec] at hsize
          rw [Tree.opensLast, Bool.and_eq_true, Bool.or_eq_true] at hlast
          have hparts : (w.pass part).Nested parts := by
            apply ih _ _ (hw.pass part) (by omega) hderived.tail hlast.2
            intro hopens
            obtain ⟨a, as, hanchors, hlt⟩ := hanchor (by simp [Tree.opensAny, hopens])
            have hle : w.offset ≤ (w.pass part).offset := by
              rw [Walk.offset_pass]
              omega
            exact ⟨a, as, by rw [Walk.anchors_pass, hanchors], Nat.lt_of_lt_of_le hlt hle⟩
          have hpart : w.Nested [part] := by
            cases part with
            | chars taken => exact .of_eq_nil rfl
            | node rule inner =>
                simp only [Tree.node.sizeOf_spec] at hsize
                apply ih.node hw (by omega) hderived.head
                intro hopens
                exact hanchor (by simp [Tree.opensAny, hopens])
          apply Walk.Nested.cons hw hderived.tail hpart hparts
          intro hopens a as hanchors c hc
          have hclosed : Tree.opensAny [part] = false := by
            rcases hlast.1 with hempty | hclosed
            · rw [List.isEmpty_iff.mp hempty] at hopens
              cases hopens
            · simpa [Tree.opensAny] using hclosed
          obtain ⟨a', as', hanchors', hlt⟩ := hanchor (by simp [Tree.opensAny, hopens])
          rw [hanchors] at hanchors'
          cases hanchors'
          have hle := Walk.le_start_of_mem_capturesOfAll hclosed (List.mem_filter.mp hc).1
          omega

theorem plain_initial : Walk.initial.Plain where
  padding := rfl
  quiet := rfl
  tokenEnd_le := Nat.le_refl _
  anchored := by
    intro a ha
    cases ha

/-- The occurrences of a whole text are apart or nested. -/
theorem nested_of_whole {s rest : List Char} {parts : List Tree}
    (h : Match pico8.grammar (.rule rootName) s parts rest) : Walk.initial.Nested parts := by
  have hclosed : Tree.opensAny parts = false :=
    h.opensAny_eq_false (recordable pico8).toSound (by decide)
  exact (nestedBelow _).of_closed plain_initial (Nat.lt_succ_self _) h.derived hclosed

end Dialect

end CartLua
