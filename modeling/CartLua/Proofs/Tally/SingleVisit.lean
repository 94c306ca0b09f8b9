import Mathlib.Data.List.Perm.Subperm
import CartLua.Proofs.Dialect.Conservative
import CartLua.Proofs.Parser.Diagnosis
import CartLua.Proofs.Tally.NothingTwice

/-!
# Nested constructs match once

Functions, tables and brackets nest without bound, so a parser that walked one of them twice would
need exponential time.  A parse that confirms no short `if` matches none of them twice at a place,
what it abandons included.

The proof goes by the depth of derivations, as the one that the dialect is a conservative extension:
what is said of the rules within a depth is read off their bodies one level deeper.
-/

namespace CartLua

open Dialect Pattern

namespace Survey

variable {v : Survey} {depth n : Nat} {name : String} {Q : List Char → Prop}

/-! ## From one depth to the next -/

theorem silent_rule (hfollows : v.Follows thrift depth) (hn : n ≤ depth)
    (hname : thrift.refusing.contains name = true) : v.Silent Anywhere (n + 1) (.rule name) := by
  intro st last h hanywhere
  obtain ⟨rule, -, hfound, -, -⟩ := h.of_rule
  obtain rfl := Grammar.name_of_rule? hfound
  have hrule : rule ∈ v.dialect.rules := rules_grammar v.dialect ▸ Grammar.mem_of_rule? hfound
  have hthrifty := isThrifty_of_mem hrule
  simp only [isThrifty, hname, Bool.not_true, Bool.false_or, Bool.and_eq_true] at hthrifty
  obtain ⟨⟨-, hbody⟩, -⟩ := hthrifty
  exact Silent.rule hrule (hfollows.silentPart hn hbody) st last h hanywhere

/-- A rule that is none of the nested constructs matches tidily if its body does. -/
theorem tidy_rule (hv : v.watched = nestedConstructs) (hname : name ∉ nestedConstructs)
    (hbody : ∀ rule ∈ v.dialect.rules, rule.name = name → v.Tidy n rule.body Q) :
    v.Tidy (n + 1) (.rule name) Q := by
  intro st last parts h hlacks hQ
  obtain ⟨rule, -, -, hfound, -, -, -⟩ := h.of_rule
  obtain rfl := Grammar.name_of_rule? hfound
  have hrule : rule ∈ v.dialect.rules := rules_grammar v.dialect ▸ Grammar.mem_of_rule? hfound
  have hwatched : v.watched.contains rule.name = false := by
    rw [hv]
    simpa using hname
  exact Tidy.rule hrule hwatched (hbody rule hrule rfl) st last parts h hlacks hQ

/-- A nested construct begins with a token, and what is inside it matches tidily. -/
theorem tidy_nested (hfollows : v.Follows thrift depth) (hn : n ≤ depth)
    (hname : name ∈ nestedConstructs) : v.Tidy (n + 1) (.rule name) Q := by
  have htakes : ∀ dialect : Dialect, ∀ token ∈ [key "function", one "\x7b", one "("],
      token.nullable (recordable dialect).toSound.traits.nullable = false := by
    intro dialect
    cases dialect <;> decide
  simp only [nestedConstructs, List.mem_cons, List.not_mem_nil, or_false] at hname
  rcases hname with rfl | rfl | rfl
  · have hrule : functionLiteral ∈ v.dialect.rules := by simp [rules, valueRules]
    exact .rule_after_token hrule rfl rfl hfollows.barren (by decide)
      (htakes v.dialect _ (by simp)) (hfollows.tidyAlways hn (by decide))
  · have hrule : tableConstructor ∈ v.dialect.rules := by simp [rules, valueRules]
    exact .rule_after_token hrule rfl rfl hfollows.barren (by decide)
      (htakes v.dialect _ (by simp)) (hfollows.tidyAlways hn (by decide))
  · have hrule : bracketExpr ∈ v.dialect.rules := by simp [rules, valueRules]
    exact .rule_after_token hrule rfl rfl hfollows.barren (by decide)
      (htakes v.dialect _ (by simp)) (hfollows.tidyAlways hn (by decide))

/-- A rule that the passage lists matches tidily if its parts do and it does not walk far. -/
theorem tidy_ordinary {known : Bool} (hv : v.watched = nestedConstructs)
    (hfollows : v.Follows thrift depth) (hn : n ≤ depth) (hname : name ∉ nestedConstructs)
    (hbody : ∀ rule : Rule, rule.name = name → isThrifty rule = true →
      rule.body.carries thrift known = true) :
    v.Tidy (n + 1) (.rule name) (v.GoesOn ending known) :=
  tidy_rule hv hname fun rule hrule heq =>
    hfollows.tidyPart hn (hbody rule heq (isThrifty_of_mem hrule))

theorem tidy_sealed (hv : v.watched = nestedConstructs) (hfollows : v.Follows thrift depth)
    (hn : n ≤ depth) (hname : thrift.sealed.contains name = true) :
    v.Tidy (n + 1) (.rule name) Anywhere := by
  by_cases hnested : name ∈ nestedConstructs
  · exact tidy_nested hfollows hn hnested
  by_cases hfar : name = "for_statement"
  · subst hfar
    have hrule : forStatement ∈ v.dialect.rules := by simp [rules, blockRules]
    have hwatched : v.watched.contains forStatement.name = false := by
      rw [hv]
      decide
    exact Tidy.rule hrule hwatched (tidy_forStatement hfollows hn)
  · have hfar' : walksFar.contains name = false := by
      have hall : thrift.sealed.all (fun name =>
          name == "for_statement" || !walksFar.contains name) = true := by decide
      have hname := List.all_eq_true.mp hall name (List.contains_iff_mem.mp hname)
      simpa [hfar] using hname
    have hanywhere : v.GoesOn ending false = Anywhere := goesOn_false
    rw [← hanywhere]
    apply tidy_ordinary hv hfollows hn hnested
    rintro rule rfl hthrifty
    simp only [isThrifty, hname, hfar', Bool.not_true, Bool.false_or, Bool.and_eq_true] at hthrifty
    exact hthrifty.2.1

theorem tidy_passing (hv : v.watched = nestedConstructs) (hfollows : v.Follows thrift depth)
    (hn : n ≤ depth) (hname : thrift.passing.contains name = true) :
    v.Tidy (n + 1) (.rule name) (v.GoesOn ending true) := by
  have hnested : name ∉ nestedConstructs := by
    have hall : nestedConstructs.all (fun name => !thrift.passing.contains name) = true := by decide
    intro hmem
    have hnot := List.all_eq_true.mp hall name hmem
    rw [hname] at hnot
    cases hnot
  have hspecial : ∀ {rule : Rule}, rule ∈ v.dialect.rules → rule.name = name →
      v.Tidy n rule.body (v.GoesOn ending true) →
        v.Tidy (n + 1) (.rule name) (v.GoesOn ending true) := by
    rintro rule hrule rfl hbody
    refine Tidy.rule hrule ?_ hbody
    rw [hv]
    simpa using hnested
  by_cases hfar : walksFar.contains name = true
  · simp only [walksFar, List.contains_eq_mem, List.mem_cons, List.not_mem_nil, or_false,
      decide_eq_true_eq] at hfar
    rcases hfar with rfl | rfl | rfl | rfl | rfl | rfl
    · cases hname
    · exact hspecial (mem_variableContinuation v.dialect) rfl
        (tidy_variableContinuation hfollows hn)
    · have hrule : callContinuation ∈ v.dialect.rules := by simp [rules, chainStatementRules]
      exact hspecial hrule rfl (tidy_callContinuation hfollows hn)
    · have hrule : assignments ∈ v.dialect.rules := by simp [rules, chainStatementRules]
      exact hspecial hrule rfl (tidy_assignments hv hfollows hn)
    · have hrule : chainStatement ∈ v.dialect.rules := by simp [rules, chainStatementRules]
      exact hspecial hrule rfl (tidy_chainStatement hfollows hn)
    · exact hspecial (mem_statement v.dialect) rfl (tidy_statement hfollows hn)
  · apply tidy_ordinary hv hfollows hn hnested
    rintro rule rfl hthrifty
    have hfar' : walksFar.contains rule.name = false := Bool.eq_false_iff.mpr hfar
    simp only [isThrifty, hname, hfar', Bool.not_true, Bool.false_or, Bool.and_eq_true] at hthrifty
    exact hthrifty.2.2

/-- What is said of the rules is so within every depth. -/
theorem follows (hv : v.watched = nestedConstructs) (depth : Nat) : v.Follows thrift depth := by
  induction depth with
  | zero => exact ⟨suits_thrift hv, nofun, nofun, nofun⟩
  | succ depth ih =>
      refine ⟨suits_thrift hv, ?_, ?_, ?_⟩
      · intro n hn name hname
        cases n with
        | zero => exact .zero
        | succ n => exact silent_rule ih (by omega) hname
      · intro n hn name hname
        cases n with
        | zero => exact .zero
        | succ n => exact tidy_sealed hv ih (by omega) hname
      · intro n hn name hname
        cases n with
        | zero => exact .zero
        | succ n => exact tidy_passing hv ih (by omega) hname

/-- What is written down of a whole text without a short `if` begins at different places of it. -/
theorem adds_whole {last : State (List Capture)} (hv : v.watched = nestedConstructs)
    (hrun : Matching.run v.setting depth (.rule rootName) (State.initial []) = ⟨.matched, last⟩)
    (hlacks : ∀ tree, Derives v.dialect.grammar (.rule rootName) v.text.toList
      (.matched [tree] []) → Tree.Lacks shortIfStatement.name [tree]) :
    Adds (State.initial []) last ∧ last.offset ≤ v.text.size := by
  have hsound : v.Sound (.rule rootName) := sound_rootName v.dialect
  have hinside : (State.initial ([] : List Capture)).offset ≤ v.text.size := Nat.zero_le _
  obtain ⟨parts, hsucceeds⟩ := exists_succeeds hsound hinside hrun
  have hderives := hsucceeds.derives.erase
  obtain ⟨hrest, tree, rfl⟩ := of_program hderives.toMatch
  rw [hrest] at hderives
  have htidy : v.Tidy depth (.rule rootName) Anywhere :=
    (follows hv (depth + 1)).sealed depth (Nat.lt_succ_self depth) rootName (by decide)
  exact ⟨htidy _ _ _ hsucceeds (hlacks tree hderives) trivial, hsucceeds.stays⟩

end Survey

/-! ## Whole texts -/

namespace Dialect

/-- Where no short `if` is left in the logs, none is in the tree of the text. -/
theorem lacks_shortIf {dialect : Dialect} {limit : Int} {source : Source} {parsed : Parsed}
    {tree : Tree} (hparsed : ((dialect.parser limit).record source).1 = .ok parsed)
    (hnone : (((dialect.parser limit).record source).2.log .shortIf).toList = [])
    (htree : Derives dialect.grammar (.rule rootName) source.chars (.matched [tree] [])) :
    Tree.Lacks shortIfStatement.name [tree] := by
  intro m hm hname
  have hkind : OccurrenceKind.ofName? m.1.name = some .shortIf := by
    rw [hname]
    decide
  cases dialect with
  | canonical =>
      have hplain := List.all_eq_true.mp plain_rules m.1 (mem_rules_of_mem_nodes htree.toMatch hm).1
      rw [hkind] at hplain
      cases hplain
  | pico8 =>
      obtain ⟨other, hother, hagrees⟩ := derives_of_record hparsed
      cases hother.deterministic htree
      have hconfirms := confirms_of_agrees htree.toMatch hagrees
      rcases captured_of_mem_nodesOfAll plain_initial [tree] htree.toMatch.derived m hm with
        hpadding | ⟨c, hc, hrule⟩
      · rw [ofName?_of_mem_paddingRules hpadding] at hkind
        cases hkind
      · rw [← captures_eq] at hc
        exact (hconfirms.toList_log_eq_nil_iff .shortIf).mp hnone c hc (hrule.trans hname)

end Dialect

namespace Dialect

/-- A text that is accepted while it is recorded is accepted under every observer, with the same
result. -/
theorem exists_parse_eq_of_record {σ : Type} {dialect : Dialect} {limit : Int} {source : Source}
    {parsed : Parsed} (observer : Observer σ) (start : σ)
    (hparsed : ((dialect.parser limit).record source).1 = .ok parsed) :
    ∃ last, Matching.run (dialect.grammar.setting source.text observer)
        (dialect.parser limit).depth (.rule rootName) (State.initial start) = ⟨.matched, last⟩ ∧
      (dialect.parser limit).parse observer start source = (.ok parsed, last) := by
  have halike := Matching.run_alike source.text dialect.grammar.rule? dialect.grammar.isLinked
    (Recorder.observer source) observer (dialect.parser limit).depth (.rule rootName)
    (State.initial .empty) (State.initial start) rfl
  rw [record_eq, Grammar.recording] at hparsed
  rw [Parser.parse, Parser.prefixLength, run_root, Grammar.setting]
  generalize Matching.run ⟨source.text, dialect.grammar.rule?, dialect.grammar.isLinked,
    Recorder.observer source⟩ _ _ _ = x at halike hparsed
  generalize Matching.run ⟨source.text, dialect.grammar.rule?, dialect.grammar.isLinked,
    observer⟩ _ _ _ = y at halike ⊢
  cases halike with
  | @matched a b hoffset =>
      refine ⟨b, rfl, ?_⟩
      dsimp only at hparsed ⊢
      rw [← Except.ok.inj hparsed, ← hoffset, ← root_grammar dialect]
      rfl
  | failed => cases hparsed
  | stopped => cases hparsed

end Dialect

/-- Places of a text that differ from each other are no more than its characters. -/
theorem length_le_of_nodup {places : List Int} {size : Nat} (hnodup : places.Nodup)
    (hbounds : ∀ i ∈ places, 0 ≤ i ∧ i < size) : places.length ≤ size := by
  have hsub : places ⊆ (List.range size).map Int.ofNat := by
    intro i hi
    have hi' := hbounds i hi
    exact List.mem_map.mpr ⟨i.toNat, List.mem_range.mpr (by omega), Int.toNat_of_nonneg hi'.1⟩
  have hle := (List.subperm_of_subset hnodup hsub).length_le
  simpa using hle

/-- In a text that is accepted without a short `if`, no two functions, tables or brackets that are
matched in the course of the whole parse, abandoned alternatives included, begin at one place.  So
there are at most as many such matches as the text has characters. -/
theorem nested_constructs_match_once (dialect : Dialect) (limit : Int) {source : Source}
    {parsed : Parsed} (hparsed : ((dialect.parser limit).record source).1 = .ok parsed)
    (hnone : (((dialect.parser limit).record source).2.log .shortIf).toList = []) :
    ∃ st, (dialect.parser limit).parse (.tally nestedConstructs) [] source = (.ok parsed, st) ∧
      (st.observed.map Capture.start).Nodup ∧ st.observed.length ≤ source.length := by
  obtain ⟨last, hrun, hparse⟩ := exists_parse_eq_of_record (.tally nestedConstructs) [] hparsed
  have hadds := Survey.adds_whole (v := ⟨dialect, source.text, nestedConstructs⟩) rfl hrun
    fun tree htree => lacks_shortIf hparsed hnone htree
  obtain ⟨⟨-, added, hadded, hnodup, hbounds⟩, hstays⟩ := hadds
  obtain rfl : last.observed = added := hadded.trans (List.append_nil added)
  refine ⟨last, hparse, hnodup, ?_⟩
  rw [← List.length_map Capture.start]
  apply length_le_of_nodup hnodup
  intro i hi
  obtain ⟨c, hc, rfl⟩ := List.mem_map.mp hi
  have hc' := hbounds c hc
  have hsize : last.offset ≤ source.length := hstays
  exact ⟨hc'.1, by omega⟩

/-- Brackets in brackets with a function and a table: each is matched once, and all begin at
places of their own. -/
theorem nested_constructs_match_once_callback : ∃ parsed st,
    ((pico8.parser 0).record (.ofString "f((function()t={(a)}end))" "cart")).1 = .ok parsed ∧
      (((pico8.parser 0).record (.ofString "f((function()t={(a)}end))" "cart")).2.log
        .shortIf).toList = [] ∧
      (pico8.parser 0).parse (.tally nestedConstructs) []
        (.ofString "f((function()t={(a)}end))" "cart") = (.ok parsed, st) ∧
      (st.observed.map Capture.start).Nodup ∧ st.observed.length ≤ 25 := by
  obtain ⟨parsed, hparsed⟩ : ∃ parsed, ((pico8.parser 0).record
      (.ofString "f((function()t={(a)}end))" "cart")).1 = .ok parsed := by
    rw [exists_record_eq_ok_iff, recording_eq]
    decide +kernel
  have hnone : (((pico8.parser 0).record (.ofString "f((function()t={(a)}end))" "cart")).2.log
      .shortIf).toList = [] := by
    rw [recorder_record, recording_eq]
    decide +kernel
  obtain ⟨st, hst⟩ := nested_constructs_match_once pico8 0 hparsed hnone
  exact ⟨parsed, st, hparsed, hnone, hst⟩

end CartLua
