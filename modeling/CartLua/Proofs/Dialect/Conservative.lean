import CartLua.Proofs.Dialect.CarriedStatements
import CartLua.Proofs.Fix.Outcome

/-!
# The dialect is a conservative extension

Plain Lua accepts a text just when the dialect accepts it and records none of its
extensions.  The proof goes by the depth of derivations: what the passage lists is carried
within a depth, so it is carried one level deeper.
-/

namespace CartLua

open Dialect

namespace Dialect

open CartLua.Tree

variable {a b dialect : Dialect} {depth n : Nat} {known : Bool} {name : String}

/-! ## From one depth to the next -/

theorem refuses_rule (hholds : passage.Holds a b depth) (hn : n ≤ depth)
    (hname : passage.refusing.contains name = true) :
    Refuses a b ending false (n + 1) (.rule name) := by
  intro s hknown h
  obtain ⟨rule, hfound, -⟩ := h.of_failed_rule
  obtain rfl := Grammar.name_of_rule? hfound
  have hrule : rule ∈ a.rules := rules_grammar a ▸ Grammar.mem_of_rule? hfound
  obtain ⟨hother, hcarried⟩ := carried_of_isOrdinary b hrule
    (by simp only [isOrdinary, hname, Bool.or_true, Bool.true_or])
  simp only [isCarried, hname, Bool.not_true, Bool.false_or, Bool.and_eq_true] at hcarried
  obtain ⟨⟨⟨-, hbody⟩, -⟩, -⟩ := hcarried
  exact Refuses.rule hrule hother (hholds.refusesPart hn hbody) s hknown h

/-- An ordinary rule is carried if its body is. -/
theorem carries_rule (hholds : passage.Holds a b depth) (hn : n ≤ depth)
    (hname : isOrdinary name = true)
    (hbody : ∀ rule : Rule, rule.name = name → isCarried rule = true →
      rule.body.carries passage known = true) :
    Carries a b ending known (n + 1) (.rule name) := by
  intro s parts rest h hplain hknown
  obtain ⟨rule, _, hfound, -, -⟩ := h.of_rule
  obtain rfl := Grammar.name_of_rule? hfound
  have hrule : rule ∈ a.rules := rules_grammar a ▸ Grammar.mem_of_rule? hfound
  obtain ⟨hother, hcarried⟩ := carried_of_isOrdinary b hrule hname
  have hcarries := hholds.carriesPart hn (hbody rule rfl hcarried)
  exact Carries.rule hrule hother rfl hcarries s parts rest h hplain hknown

theorem carries_sealed (hholds : passage.Holds a b depth) (hn : n ≤ depth)
    (hname : passage.sealed.contains name = true) :
    Carries a b ending false (n + 1) (.rule name) := by
  by_cases hspecial : name ∈ specialSealed
  · simp only [specialSealed, List.mem_cons, List.not_mem_nil, or_false] at hspecial
    rcases hspecial with rfl | rfl
    · exact Carries.rule (mem_ifStatement a) (mem_ifStatement b) rfl (carries_ifStatement hholds hn)
    · have hmem : ∀ dialect, forStatement ∈ rules dialect := by simp [rules, blockRules]
      exact Carries.rule (hmem a) (hmem b) rfl (carries_forStatement hholds hn)
  · have hspecial' : specialSealed.contains name = false := by simpa using hspecial
    have hordinary : isOrdinary name = true := by
      simp only [isOrdinary, hname, hspecial', Bool.not_false, Bool.and_true, Bool.or_true,
        Bool.true_or]
    apply carries_rule hholds hn hordinary
    rintro rule rfl hcarried
    simp only [isCarried, hname, hspecial', Bool.not_true, Bool.false_or, Bool.and_eq_true]
      at hcarried
    obtain ⟨⟨-, hbody⟩, -⟩ := hcarried
    exact hbody

theorem carries_passing (hholds : passage.Holds a b depth) (hn : n ≤ depth)
    (hname : passage.passing.contains name = true) :
    Carries a b ending true (n + 1) (.rule name) := by
  by_cases hspecial : name ∈ specialPassing
  · simp only [specialPassing, List.mem_cons, List.not_mem_nil, or_false] at hspecial
    rcases hspecial with rfl | rfl | rfl | rfl | rfl | rfl
    · have hmem : ∀ dialect, exprTwo ∈ rules dialect := by simp [rules, tierRules]
      exact Carries.rule (hmem a) (hmem b) rfl (carries_exprTwo hholds hn)
    · exact Carries.rule (mem_variableContinuation a) (mem_variableContinuation b) rfl
        (carries_variableContinuation hholds hn)
    · have hmem : ∀ dialect, callContinuation ∈ rules dialect := by
        simp [rules, chainStatementRules]
      exact Carries.rule (hmem a) (hmem b) rfl (carries_callContinuation hholds hn)
    · have hmem : ∀ dialect, assignments ∈ rules dialect := by simp [rules, chainStatementRules]
      exact Carries.rule (hmem a) (hmem b) rfl (carries_assignments hholds hn)
    · have hmem : ∀ dialect, chainStatement ∈ rules dialect := by
        simp [rules, chainStatementRules]
      exact Carries.rule (hmem a) (hmem b) rfl (carries_chainStatement hholds hn)
    · exact Carries.rule (mem_statement a) (mem_statement b) rfl (carries_statement hholds hn)
  · have hspecial' : specialPassing.contains name = false := by simpa using hspecial
    have hordinary : isOrdinary name = true := by
      simp only [isOrdinary, hname, hspecial', Bool.not_false, Bool.and_true, Bool.or_true]
    apply carries_rule hholds hn hordinary
    rintro rule rfl hcarried
    simp only [isCarried, hname, hspecial', Bool.not_true, Bool.false_or, Bool.and_eq_true]
      at hcarried
    obtain ⟨-, hbody⟩ := hcarried
    exact hbody

/-- What the passage lists is carried within every depth, from either dialect to the other. -/
theorem holds (a b : Dialect) (depth : Nat) : passage.Holds a b depth := by
  induction depth with
  | zero => exact ⟨nofun, nofun, nofun⟩
  | succ depth ih =>
      constructor
      · intro n hn name hname
        cases n with
        | zero => exact .zero
        | succ n => exact refuses_rule ih (by omega) hname
      · intro n hn name hname
        cases n with
        | zero => exact .zero
        | succ n => exact carries_sealed ih (by omega) hname
      · intro n hn name hname
        cases n with
        | zero => exact .zero
        | succ n => exact carries_passing ih (by omega) hname

/-! ## Whole texts -/

/-- A plain match of a whole text in one dialect is one in the other. -/
theorem program_of_program {s : List Char} {tree : Tree}
    (h : DerivesIn a.grammar n (.rule rootName) s (.matched [tree] [])) (hplain : Plain [tree]) :
    ∃ other, DerivesIn b.grammar n (.rule rootName) s (.matched [other] []) ∧ Plain [other] := by
  have hcarries : Carries a b ending false n (.rule rootName) :=
    (holds a b (n + 1)).sealed n (by omega) rootName (by decide)
  obtain ⟨more, hmore, hplainMore⟩ := hcarries s [tree] [] h hplain nofun
  obtain ⟨-, other, rfl⟩ := of_program hmore.erase.toMatch
  exact ⟨other, hmore, hplainMore⟩

/-- Plain Lua matches a text just when the dialect does without its extensions. -/
theorem derivesIn_canonical_iff {s : List Char} :
    (∃ tree, DerivesIn canonical.grammar n (.rule rootName) s (.matched [tree] [])) ↔
      ∃ tree, DerivesIn pico8.grammar n (.rule rootName) s (.matched [tree] []) ∧ Plain [tree] := by
  constructor
  · rintro ⟨tree, htree⟩
    have hplain : Plain [tree] := by
      intro m hm
      have hmem := (mem_rules_of_mem_nodes htree.erase.toMatch hm).1
      simpa using List.all_eq_true.mp plain_rules m.1 hmem
    exact program_of_program htree hplain
  · rintro ⟨tree, htree, hplain⟩
    obtain ⟨other, hother, -⟩ := program_of_program htree hplain
    exact ⟨other, hother⟩

/-- A text is accepted, whatever follows the match, when the root is derived within the depth
of the parser. -/
theorem exists_parse_eq_ok_iff {σ : Type} {observer : Observer σ} {start : σ} {limit : Int}
    {source : Source} :
    (∃ parsed, ((dialect.parser limit).parse observer start source).1 = .ok parsed) ↔
      ∃ tree, DerivesIn dialect.grammar (dialect.parser limit).depth (.rule rootName)
        source.chars (.matched [tree] []) := by
  have hanswers := answers_run (recordable dialect).toSound source.text observer
    (dialect.parser limit).depth (sound_rootName dialect) (State.initial start) (Nat.zero_le _)
  have hroot : dialect.grammar.root = rootName := by cases dialect <;> rfl
  simp only [Parser.parse, Parser.prefixLength, Parser.run, parser, hroot] at hanswers ⊢
  rcases houtcome : Matching.run
    ⟨source.text, dialect.grammar.rule?, dialect.grammar.isLinked, observer⟩
    (Parser.depth ⟨dialect.grammar, limit, dialect.checked_grammar⟩) (.rule rootName)
    (State.initial start) with ⟨verdict, last⟩
  rw [houtcome] at hanswers
  cases verdict with
  | matched =>
      obtain ⟨-, parts, hparts⟩ := hanswers
      obtain ⟨hrest, tree, rfl⟩ := of_program hparts.erase.toMatch
      rw [hrest] at hparts
      exact ⟨fun _ => ⟨tree, hparts⟩, fun _ => ⟨_, rfl⟩⟩
  | failed =>
      constructor
      · rintro ⟨_, hparsed⟩
        cases hparsed
      · rintro ⟨tree, htree⟩
        cases htree.eq_of hanswers.2
  | stopped stop =>
      constructor
      · rintro ⟨_, hparsed⟩
        cases hparsed
      · rintro ⟨tree, htree⟩
        rcases hanswers with ⟨-, hnone⟩ | ⟨-, hbroken⟩
        · exact absurd htree (hnone _)
        · cases htree.eq_of hbroken

mutual

/-- A rule of a tree is captured unless it is one of padding. -/
theorem captured_of_mem_nodes {w : Walk} (hw : w.Plain) : (t : Tree) → Tree.Derived [t] →
    ∀ m ∈ t.nodes, paddingRules.contains m.1.name = true ∨ ∃ c ∈ w.captures t, c.rule = m.1.name
  | .chars _, _, _, hm => nomatch hm
  | .node rule parts, hderived, m, hm => by
      obtain ⟨hrule, -⟩ := hderived.node
      by_cases hpadded : paddingRules.contains rule.name = true
      · exact .inl (names_of_padding hderived hpadded m (List.mem_append_left _ hm))
      have hplain : (rule.padding || rule.quiet) = false :=
        Bool.eq_false_iff.mpr fun h => hpadded (padding_of_mem hrule h)
      obtain ⟨hpadding, hquiet⟩ := Bool.or_eq_false_iff.mp hplain
      rw [Walk.captures, if_pos hw.quiet]
      rcases List.mem_cons.mp hm with rfl | hm
      · exact .inr ⟨_, List.mem_append_right _ List.mem_cons_self, Walk.rule_capture ..⟩
      · rcases captured_of_mem_nodesOfAll (hw.enter hpadding hquiet) parts hderived.inner m hm with
          hname | ⟨c, hc, hname⟩
        · exact .inl hname
        · exact .inr ⟨c, List.mem_append_left _ hc, hname⟩

theorem captured_of_mem_nodesOfAll {w : Walk} (hw : w.Plain) : (parts : List Tree) →
    Tree.Derived parts → ∀ m ∈ nodesOfAll parts, paddingRules.contains m.1.name = true ∨
      ∃ c ∈ w.capturesOfAll parts, c.rule = m.1.name
  | [], _, _, hm => nomatch hm
  | part :: parts, hderived, m, hm => by
      rw [Walk.capturesOfAll]
      rcases List.mem_append.mp hm with hm | hm
      · rcases captured_of_mem_nodes hw part hderived.head m hm with hname | ⟨c, hc, hname⟩
        · exact .inl hname
        · exact .inr ⟨c, List.mem_append_left _ hc, hname⟩
      · rcases captured_of_mem_nodesOfAll (hw.pass part) parts hderived.tail m hm with
          hname | ⟨c, hc, hname⟩
        · exact .inl hname
        · exact .inr ⟨c, List.mem_append_right _ hc, hname⟩

end

/-- A tree in which no rule of an extension is captured is plain. -/
theorem plain_of_captures {parts : List Tree} (hderived : Tree.Derived parts)
    (hnone : ∀ kind : OccurrenceKind,
      ∀ c ∈ Walk.initial.capturesOfAll parts, c.rule ≠ kind.name) : Plain parts := by
  intro m hm
  rcases captured_of_mem_nodesOfAll plain_initial parts hderived m hm with hname | ⟨c, hc, hname⟩
  · exact ofName?_of_mem_paddingRules hname
  · rw [Option.eq_none_iff_forall_ne_some]
    intro kind hkind
    exact hnone kind c hc (hname.trans (Recorder.ofName?_eq_some.mp hkind))

end Dialect

/-- A log is empty just when no rule of its kind was captured. -/
theorem Recorder.Confirms.toList_log_eq_nil_iff {source : Source} {recorder : Recorder}
    {tree : Tree} (h : recorder.Confirms source tree) (kind : OccurrenceKind) :
    (recorder.log kind).toList = [] ↔ ∀ c ∈ Walk.initial.captures tree, c.rule ≠ kind.name := by
  rw [← List.length_eq_zero_iff, (h.occurrences_perm kind).length_eq, List.length_map,
    List.length_eq_zero_iff, List.filter_eq_nil_iff]
  simp

namespace Dialect

open CartLua.Tree

/-- The logs are empty in the end just when the tree of the text is plain. -/
theorem logs_eq_nil_iff {limit : Int} {source : Source} {parsed : Parsed} {tree : Tree}
    (hparsed : ((pico8.parser limit).record source).1 = .ok parsed)
    (htree : Derives pico8.grammar (.rule rootName) source.chars (.matched [tree] [])) :
    (∀ kind, (((pico8.parser limit).record source).2.log kind).toList = []) ↔ Plain [tree] := by
  obtain ⟨other, hother, hagrees⟩ := derives_of_record hparsed
  cases hother.deterministic htree
  have hconfirms := confirms_of_agrees htree.toMatch hagrees
  simp only [hconfirms.toList_log_eq_nil_iff]
  constructor
  · intro hnames
    apply plain_of_captures htree.toMatch.derived
    rwa [← captures_eq]
  · intro hplain kind c hc hname
    have hnone := Walk.occurrences_eq_nil anchored_initial hplain
    rw [Walk.occurrences, ← captures_eq, List.filter_eq_nil_iff] at hnone
    exact hnone c hc (Capture.isOccurrence_of_rule_eq hname)

end Dialect

/-- Where the logs are empty nothing has been recorded. -/
theorem Recorder.occurrences_eq_nil {recorder : Recorder}
    (h : ∀ kind, (recorder.log kind).toList = []) (kinds : List OccurrenceKind) :
    recorder.occurrences kinds = [] := by
  rw [occurrences, List.flatMap_eq_nil_iff.mpr fun kind _ => h kind]
  rfl

/-- A text of which nothing is recorded stays as it is. -/
theorem Fix.parsedAndDesugared_of_plain {config : Config} {source : Source} {parsed : Parsed}
    (hparsed : ((config.dialect.parser config.nestingLimit).record source).1 = .ok parsed)
    (hnone : ∀ kinds,
      ((config.dialect.parser config.nestingLimit).record source).2.occurrences kinds = []) :
    (parsedAndDesugared config source).1 = .fixed source.chars [] [] := by
  have hplan : Desugar.plan source [] = .ok [] := rfl
  rw [parsedAndDesugared]
  rcases hrecord : (config.dialect.parser config.nestingLimit).record source with
    ⟨result, recorder⟩
  rw [hrecord] at hparsed hnone
  cases hparsed
  simp only [desugarRecorded, hnone, hplan, Edit.applyAll_nil]
  rfl

/-- Whether a parser accepts a source. -/
def Parser.Accepts (p : Parser) (source : Source) : Prop :=
  ∃ parsed, (p.parse (Observer.idle Unit) () source).1 = .ok parsed

/-- A text is accepted whether or not the recorder follows the match. -/
theorem Dialect.accepts_iff_record {dialect : Dialect} {limit : Int} {source : Source} :
    (dialect.parser limit).Accepts source ↔
      ∃ parsed, ((dialect.parser limit).record source).1 = .ok parsed :=
  exists_parse_eq_ok_iff.trans exists_parse_eq_ok_iff.symm

/-- Plain Lua accepts a text just when the dialect does and records nothing of it. -/
theorem Dialect.accepts_canonical_iff {limit : Int} {source : Source} :
    (canonical.parser limit).Accepts source ↔ (pico8.parser limit).Accepts source ∧
      ∀ kind, (((pico8.parser limit).record source).2.log kind).toList = [] := by
  have hplain : (canonical.parser limit).Accepts source ↔ ∃ tree,
      DerivesIn pico8.grammar (pico8.parser limit).depth (.rule rootName) source.chars
        (.matched [tree] []) ∧ Tree.Plain [tree] :=
    exists_parse_eq_ok_iff.trans derivesIn_canonical_iff
  rw [hplain]
  constructor
  · rintro ⟨tree, htree, hplain⟩
    have haccepts : (pico8.parser limit).Accepts source := exists_parse_eq_ok_iff.mpr ⟨tree, htree⟩
    obtain ⟨parsed, hparsed⟩ := accepts_iff_record.mp haccepts
    exact ⟨haccepts, (logs_eq_nil_iff hparsed htree.erase).mpr hplain⟩
  · rintro ⟨haccepts, hlogs⟩
    obtain ⟨tree, htree⟩ := exists_parse_eq_ok_iff.mp haccepts
    obtain ⟨parsed, hparsed⟩ := accepts_iff_record.mp haccepts
    exact ⟨tree, htree, (logs_eq_nil_iff hparsed htree.erase).mp hlogs⟩

/-- Nothing is recorded of plain Lua in either dialect. -/
theorem Dialect.record_of_accepts_canonical (dialect : Dialect) {limit : Int} {source : Source}
    (h : (canonical.parser limit).Accepts source) :
    (∃ parsed, ((dialect.parser limit).record source).1 = .ok parsed) ∧
      ∀ kinds, ((dialect.parser limit).record source).2.occurrences kinds = [] := by
  cases dialect with
  | canonical =>
      obtain ⟨parsed, hparsed⟩ := accepts_iff_record.mp h
      exact ⟨⟨parsed, hparsed⟩, occurrences_of_canonical hparsed⟩
  | pico8 =>
      obtain ⟨haccepts, hlogs⟩ := accepts_canonical_iff.mp h
      exact ⟨accepts_iff_record.mp haccepts, Recorder.occurrences_eq_nil hlogs⟩

/-- The dialect is a conservative extension: plain Lua accepts a text just when the dialect
does and all logs are empty in the end, and without known fixes such a text is fixed, in
either language, to itself. -/
theorem extension_is_conservative :
    (∀ (limit : Int) (source : Source),
      (canonical.parser limit).Accepts source ↔ (pico8.parser limit).Accepts source ∧
        ∀ kind, (((pico8.parser limit).record source).2.log kind).toList = []) ∧
    ∀ (config : Config) (code : List Char), config.knownFixes = false →
      (canonical.parser config.nestingLimit).Accepts (.ofChars code config.filename) →
        (fix config code).1 = ⟨.ofChars code config.filename, [], .fixed code [] []⟩ := by
  constructor
  · exact fun _ _ => accepts_canonical_iff
  · intro config code hfixes haccepts
    obtain ⟨⟨parsed, hparsed⟩, hnone⟩ := record_of_accepts_canonical config.dialect haccepts
    have hfixed := Fix.parsedAndDesugared_of_plain hparsed hnone
    rw [Source.chars_ofChars] at hfixed
    simp only [fix, hfixes, Bool.false_eq_true, if_false, hfixed]

/-- An assignment is plain Lua, and stays as it is in the dialect. -/
theorem extension_is_conservative_assignment :
    (canonical.parser 100).Accepts (.ofString "a=b" "cart") ∧
      (fix ⟨.pico8, "cart", 100, false, by decide⟩ "a=b".toList).1 =
        ⟨.ofString "a=b" "cart", [], .fixed "a=b".toList [] []⟩ := by
  have haccepts : (canonical.parser 100).Accepts (.ofString "a=b" "cart") := by
    rw [accepts_iff_record, exists_record_eq_ok_iff, recording_eq]
    decide +kernel
  exact ⟨haccepts, extension_is_conservative.2 ⟨.pico8, "cart", 100, false, by decide⟩
    "a=b".toList rfl haccepts⟩

end CartLua
