import CartLua.Dialect.Grammar
import CartLua.Proofs.Derivation.Faithful
import CartLua.Proofs.Derivation.Takes

/-!
# The grammars of Lua are sound

The rules of both dialects are checked one by one.  A rule is found by the name it
was defined with, since no two of them share one, so a call of it does what its body does.
-/

namespace CartLua.Dialect

/-- What is known of the rules of a dialect.  Only the rules inside a chain report
from its beginning. -/
def traits (dialect : Dialect) : Traits where
  defined := dialect.rules.map Rule.name
  nullable := ["short_comment", "seps", "statement_return", "call_continuation", rootName]
  opening := ["variable_continuation", "call_continuation", "bracket_continuation", "reassignment"]

/-- Whether a rule has the traits that a dialect says. -/
def fits (traits : Traits) (rule : Rule) : Bool :=
  rule.body.sound traits &&
    (!rule.body.nullable traits.nullable ||
      (traits.nullable.contains rule.name && !Recorder.watches rule.name)) &&
    (!(rule.anchored || (!rule.anchor && rule.body.opens traits.opening)) ||
      traits.opening.contains rule.name)

/-- Every rule has the traits that its dialect says. -/
theorem fits_rules (dialect : Dialect) :
    (dialect.rules.all (fits dialect.traits)) = true := by
  cases dialect <;> decide

theorem nodup_names (dialect : Dialect) : (dialect.rules.map Rule.name).Nodup := by
  cases dialect <;> decide

/-- Looking a rule up by its name finds the rule. -/
theorem rule?_grammar {dialect : Dialect} {rule : Rule} (hrule : rule ∈ dialect.rules) :
    dialect.grammar.rule? rule.name = some rule := by
  rw [Grammar.rule?_eq_find?, rules_grammar]
  obtain ⟨before, after, hsplit⟩ := List.append_of_mem hrule
  have hnodup := nodup_names dialect
  rw [hsplit, List.map_append, List.map_cons] at hnodup
  have hothers : ∀ other ∈ before, (!(other.name == rule.name)) = true := by
    intro other hother
    have hne := (List.nodup_append.mp hnodup).2.2 other.name (List.mem_map_of_mem hother) rule.name
      List.mem_cons_self
    simpa using hne
  exact List.find?_eq_some_iff_append.mpr ⟨beq_self_eq_true rule.name, before, after, hsplit,
    hothers⟩

theorem isLinked_grammar (dialect : Dialect) (name : String) :
    dialect.grammar.isLinked none name = dialect.grammar.defines name := by
  cases dialect with
  | canonical =>
      exact Grammar.isLinked_ofRules (grammarName canonical) rootName keywords (rules canonical)
        name
  | pico8 => exact Grammar.isLinked_ofRules (grammarName pico8) rootName keywords (rules pico8) name

theorem isLinked_grammar_some (dialect : Dialect) (site : Nat) (name : String) :
    dialect.grammar.isLinked (some site) name = false := by
  cases dialect <;> rfl

theorem rule?_eq (dialect : Dialect) :
    dialect.grammar.rule? = fun name => dialect.rules.find? fun rule => rule.name == name := by
  funext name
  rw [Grammar.rule?_eq_find?, rules_grammar]

theorem isLinked_eq (dialect : Dialect) :
    dialect.grammar.isLinked = fun site name =>
      site.isNone && (dialect.rules.find? fun rule => rule.name == name).isSome := by
  funext site name
  cases site with
  | none =>
      rw [isLinked_grammar, Grammar.defines, rule?_eq, Option.isNone_none, Bool.true_and]
  | some site => rw [isLinked_grammar_some, Option.isNone_some, Bool.false_and]

/-! ## Rules called by their names -/

section

variable {dialect : Dialect} {rule : Rule} {s rest : List Char} {parts : List Tree}

/-- A rule of a dialect is linked where it is called by its name. -/
theorem isLinked_of_mem (hrule : rule ∈ dialect.rules) :
    dialect.grammar.isLinked none rule.name = true := by
  rw [isLinked_grammar, Grammar.defines, rule?_grammar hrule]
  rfl

theorem derives_call (hrule : rule ∈ dialect.rules)
    (h : Derives dialect.grammar rule.body s (.matched parts rest)) :
    Derives dialect.grammar (.call rule.name) s (.matched [.node rule parts] rest) :=
  .ref (isLinked_of_mem hrule) (.rule (rule?_grammar hrule) h)

/-- A rule has the answer of its body. -/
theorem derives_of_rule (hrule : rule ∈ dialect.rules)
    (h : Derives dialect.grammar (.rule rule.name) s (.matched parts rest)) :
    ∃ inner, parts = [.node rule inner] ∧
      Derives dialect.grammar rule.body s (.matched inner rest) := by
  generalize ha : Answer.matched parts rest = a at h
  cases h with
  | @rule _ _ _ a found inner =>
      cases (rule?_grammar hrule).symm.trans found
      cases a <;> cases ha
      exact ⟨_, rfl, inner⟩

theorem derives_of_call (hrule : rule ∈ dialect.rules)
    (h : Derives dialect.grammar (.call rule.name) s (.matched parts rest)) :
    ∃ inner, parts = [.node rule inner] ∧
      Derives dialect.grammar rule.body s (.matched inner rest) := by
  cases h with
  | ref _ h => exact derives_of_rule hrule h

/-- A rule called by its name takes what its body takes. -/
theorem takes_call (hrule : rule ∈ dialect.rules) :
    Takes dialect.grammar (.call rule.name) s rest ↔ Takes dialect.grammar rule.body s rest := by
  constructor
  · rintro ⟨parts, h⟩
    obtain ⟨inner, -, hinner⟩ := derives_of_call hrule h
    exact ⟨inner, hinner⟩
  · rintro ⟨inner, h⟩
    exact ⟨_, derives_call hrule h⟩

/-- A rule called by its name fails where its body does. -/
theorem failed_call (hrule : rule ∈ dialect.rules)
    (h : Derives dialect.grammar rule.body s .failed) :
    Derives dialect.grammar (.call rule.name) s .failed :=
  .ref (isLinked_of_mem hrule) (.rule (rule?_grammar hrule) h)

/-- A rule called by its name fails just where its body does. -/
theorem failed_call_iff (hrule : rule ∈ dialect.rules) :
    Derives dialect.grammar (.call rule.name) s .failed ↔
      Derives dialect.grammar rule.body s .failed := by
  constructor
  · intro h
    have hcalled : Derives dialect.grammar (.rule rule.name) s .failed := h.failed_of_failed_ref
    exact hcalled.failed_of_failed_rule (rule?_grammar hrule)
  · exact failed_call hrule

end

/-- A recorded match, with each rule looked up in the list of rules. -/
theorem recording_eq (dialect : Dialect) (source : Source) :
    dialect.grammar.recording source =
      { text := source.text
        rule? := fun name => dialect.rules.find? fun rule => rule.name == name
        isLinked := fun site name =>
          site.isNone && (dialect.rules.find? fun rule => rule.name == name).isSome
        observer := Recorder.observer source } := by
  rw [Grammar.recording, rule?_eq, isLinked_eq]

/-- A name of a rule is linked to it. -/
theorem linked_of_mem_names {dialect : Dialect} {name : String}
    (hname : name ∈ dialect.rules.map Rule.name) :
    dialect.grammar.isLinked none name = true ∧ ∃ rule, dialect.grammar.rule? name = some rule := by
  obtain ⟨rule, hrule, rfl⟩ := List.mem_map.mp hname
  exact ⟨isLinked_of_mem hrule, rule, rule?_grammar hrule⟩

/-- The grammar of a dialect can be matched with the recorder attached. -/
def recordable (dialect : Dialect) : dialect.grammar.Recordable where
  traits := dialect.traits
  defined name hname := linked_of_mem_names (by simpa [traits] using hname)
  sound rule hrule := by
    rw [rules_grammar] at hrule
    have hfits := List.all_eq_true.mp (fits_rules dialect) rule hrule
    simp only [fits, Bool.and_eq_true] at hfits
    exact hfits.1.1
  nullable rule hrule hnullable := by
    rw [rules_grammar] at hrule
    have hfits := List.all_eq_true.mp (fits_rules dialect) rule hrule
    simp only [fits, Bool.and_eq_true, Bool.or_eq_true, Bool.not_eq_true'] at hfits
    rcases hfits.1.2 with hnone | hknown
    · rw [hnullable] at hnone
      cases hnone
    · exact hknown.1
  opening rule hrule hopens := by
    rw [rules_grammar] at hrule
    have hfits := List.all_eq_true.mp (fits_rules dialect) rule hrule
    rw [fits, hopens, Bool.and_eq_true] at hfits
    simpa using hfits.2
  watched rule hrule hwatched := by
    rw [rules_grammar] at hrule
    have hfits := List.all_eq_true.mp (fits_rules dialect) rule hrule
    simp only [fits, Bool.and_eq_true, Bool.or_eq_true, Bool.not_eq_true'] at hfits
    rcases hfits.1.2 with hnone | hknown
    · exact hnone
    · rw [hwatched] at hknown
      cases hknown.2

/-- A reference to a rule of a dialect is sound. -/
theorem sound_rule {dialect : Dialect} {name : String}
    (hname : name ∈ dialect.rules.map Rule.name) :
    (Pattern.rule name).sound (recordable dialect).toSound.traits = true := by
  simpa [Pattern.sound, recordable, traits] using hname

theorem sound_rootName (dialect : Dialect) :
    (Pattern.rule rootName).sound (recordable dialect).toSound.traits = true :=
  sound_rule (List.mem_map.mpr ⟨program, by simp [rules, definitionRules], rfl⟩)

end CartLua.Dialect
