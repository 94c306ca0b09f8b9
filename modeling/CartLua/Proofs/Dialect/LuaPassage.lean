import CartLua.Proofs.Dialect.Passage

/-!
# The passage between the dialects of Lua

What is listed here is checked on the grammars of both dialects.  Three cues suffice.  After
an expression or a statement comes none of the characters `!`, `[` and `.`: a comparison
then ends alike in both dialects, and so does a chain of calls.  In an assignment none of
the characters with which a tail begins comes after a variable.  In a loop over an iterator
no `=` comes after a name.
-/

namespace CartLua.Dialect

open Pattern

/-- The rules that are not the same in both dialects, or that only one has. -/
def differing : List String :=
  ["operators_two", "operator_notequal", "if_statement", "inline_space", "short_if_statement",
    "variable_continuation", "operators_reassign", "reassignment", "statement"]

theorem mem_of_mem_extension {α : Type} {items : List α} {dialect : Dialect} {x : α}
    (h : x ∈ extension items dialect) : x ∈ items := by
  cases dialect with
  | canonical => cases h
  | pico8 => exact h

/-- A rule that is the same in both dialects is in the other one as well. -/
theorem mem_rules_of_not_differing {a b : Dialect} {rule : Rule}
    (hname : rule.name ∉ differing) (h : rule ∈ a.rules) : rule ∈ b.rules := by
  have hne : ∀ other : Rule, other.name ∈ differing → rule ≠ other := by
    rintro other hother rfl
    exact hname hother
  have hextra : ∀ items : List Rule, (∀ other ∈ items, other.name ∈ differing) →
      rule ∉ extension items a := fun items hitems hmem =>
    hname (hitems rule (mem_of_mem_extension hmem))
  have htier : rule ∈ tierRules a → rule ∈ tierRules b := by
    have h1 := hextra [operatorNotEqual] (by decide)
    have h2 := hne (operatorsTwo a) (by cases a <;> decide)
    simp only [tierRules, List.mem_append, List.mem_cons, h1, h2]
    grind
  have hblock : rule ∈ blockRules a → rule ∈ blockRules b := by
    have h1 := hextra [inlineSpace, shortIfStatement] (by decide)
    have h2 := hne (ifStatement a) (by cases a <;> decide)
    simp only [blockRules, List.mem_append, List.mem_cons, h1, h2]
    grind
  have hchain : rule ∈ chainStatementRules a → rule ∈ chainStatementRules b := by
    have h1 := hextra [operatorsReassign, reassignment] (by decide)
    have h2 := hne (variableContinuation a) (by cases a <;> decide)
    simp only [chainStatementRules, List.mem_append, List.mem_cons, h1, h2]
    grind
  have hdefinition : rule ∈ definitionRules a → rule ∈ definitionRules b := by
    have h1 := hne (statement a) (by cases a <;> decide)
    simp only [definitionRules, List.mem_cons, h1]
    grind
  simp only [rules, List.mem_append] at h ⊢
  grind

/-! ## How texts go on -/

/-- What may come after an expression or a statement. -/
def ending : Cue where
  allowed c := !(['!', '[', '.'].contains c)
  names := true
  names_allowed := by
    intro _ c hc
    have hall : ['!', '[', '.'].all (fun d => !Terminal.isIdentifierFirst d) = true := by decide
    have hnot : c ∉ ['!', '[', '.'] := by
      intro hmem
      have hfirst := List.all_eq_true.mp hall c hmem
      rw [hc] at hfirst
      cases hfirst
    simpa using hnot
  firm :=
    keywords.map keyName ++
      ["name", "semicolon", "bracket_expr", "assignments_one", "assignments", "chain_statement",
        "label_statement", "goto_statement", "do_statement", "while_statement",
        "repeat_statement", "elseif_statement", "else_statement", "if_statement",
        "short_if_statement", "for_statement", "function_definition", "local_statement",
        "statement"]

/-- What may come after a variable of an assignment. -/
def afterVariable : Cue where
  allowed c := !(['!', '[', '.', '(', '\x7b', '"', '\'', ':'].contains c)
  names := false
  names_allowed := nofun
  firm := ["assignments_one"]

/-- What may come after the names of a loop over an iterator. -/
def beforeIn : Cue where
  allowed c := c != '='
  names := false
  names_allowed := nofun
  firm := [keyName "in"]

theorem fits_cues (dialect : Dialect) :
    ending.fits dialect = true ∧ afterVariable.fits dialect = true ∧
      beforeIn.fits dialect = true := by
  cases dialect <;> decide +kernel

theorem fits_ending (dialect : Dialect) : ending.fits dialect = true := (fits_cues dialect).1

theorem fits_afterVariable (dialect : Dialect) : afterVariable.fits dialect = true :=
  (fits_cues dialect).2.1

theorem fits_beforeIn (dialect : Dialect) : beforeIn.fits dialect = true :=
  (fits_cues dialect).2.2

/-! ## What is carried -/

/-- The tiers of expressions below the comparisons. -/
def operandTiers : List String :=
  ["expr_thirteen", "expr_twelve", "expr_eleven", "unary_apply", "expr_ten", "expr_nine",
    "expr_eight", "expr_seven", "expr_six", "expr_five", "expr_four", "expr_three"]

/-- The passage from either dialect to the other one. -/
def passage : Passage where
  cue := ending
  unfailing := ["seps", "call_continuation"]
  shared :=
    lexicalRules.map Rule.name ++
      ["name_list", "name_list_must", "parameter_list_one", "parameter_list", "unary_operators",
        "operators_nine", "operators_eight", "operators_six", "variable_tail_two",
        "label_statement", "goto_statement", "function_name", "semicolon"]
  refusing :=
    operandTiers ++
      ["expr_two", "expr_one", "expression", "expr_list_must", "table_field_one",
        "table_field_two", "table_field", "table_field_list", "table_constructor",
        "function_literal", "bracket_expr", "function_args_one", "function_args",
        "variable_tail_one", "variable_tail", "function_call_tail_one", "function_call_tail",
        "do_statement", "while_statement", "repeat_statement", "else_statement",
        "assignments_one", "local_function", "for_statement", "function_definition"]
  sealed :=
    operandTiers ++
      ["table_constructor", "function_body", "function_literal", "bracket_expr",
        "function_args_one", "function_args", "variable_tail_one", "variable_tail",
        "function_call_tail_one", "function_call_tail", "variable_head_one", "variable_head",
        "do_statement", "while_statement", "elseif_statement", "else_statement",
        "if_statement", "for_statement_one", "for_statement_two", "for_statement",
        "function_definition", "local_function", "grammar"]
  passing :=
    ["expr_two", "expr_one", "expression", "expr_list_must", "table_field_one",
      "table_field_two", "table_field", "table_field_list", "statement_return",
      "repeat_statement", "assignments_one", "variable_continuation", "call_continuation",
      "bracket_continuation", "assignments", "chain_statement", "local_variables",
      "local_statement", "statement"]

/-- The rules whose matches are carried for a reason of their own, whatever follows. -/
def specialSealed : List String := ["if_statement", "for_statement"]

/-- The rules whose matches are carried for a reason of their own, if the text goes on as
after a statement. -/
def specialPassing : List String :=
  ["expr_two", "variable_continuation", "call_continuation", "assignments", "chain_statement",
    "statement"]

/-- Whether a rule is listed for something that it does not have for a reason of its own. -/
def isOrdinary (name : String) : Bool :=
  passage.unfailing.contains name || passage.shared.contains name ||
    passage.refusing.contains name ||
    (passage.sealed.contains name && !specialSealed.contains name) ||
    (passage.passing.contains name && !specialPassing.contains name)

/-- Whether a rule is what the passage says, because its parts are. -/
def isCarried (rule : Rule) : Bool :=
  (!passage.unfailing.contains rule.name || rule.body.neverFails passage.unfailing) &&
    (!passage.shared.contains rule.name || rule.body.usesOnly passage.shared) &&
    (!passage.refusing.contains rule.name || rule.body.refuses passage) &&
    (!passage.sealed.contains rule.name || specialSealed.contains rule.name ||
      rule.body.carries passage false) &&
    (!passage.passing.contains rule.name || specialPassing.contains rule.name ||
      rule.body.carries passage true)

theorem isCarried_rules :
    pico8.rules.all (fun rule => !isOrdinary rule.name || isCarried rule) = true := by
  decide +kernel

theorem not_differing_of_isOrdinary {name : String} (h : isOrdinary name = true) :
    name ∉ differing := by
  have hall : differing.all (fun name => !isOrdinary name) = true := by decide
  intro hmem
  simpa [h] using List.all_eq_true.mp hall name hmem

/-- An ordinary rule is the same in both dialects, and is what the passage says. -/
theorem carried_of_isOrdinary {a : Dialect} (b : Dialect) {rule : Rule} (hrule : rule ∈ a.rules)
    (h : isOrdinary rule.name = true) : rule ∈ b.rules ∧ isCarried rule = true := by
  have hname := not_differing_of_isOrdinary h
  have hcarried := List.all_eq_true.mp isCarried_rules rule (mem_rules_of_not_differing hname hrule)
  exact ⟨mem_rules_of_not_differing hname hrule, by simpa [h] using hcarried⟩

/-- What the passage says of unfailing and shared rules is so. -/
theorem suits (a b : Dialect) : passage.Suits a b where
  cue := fits_ending a
  unfailing := by
    intro rule hrule hname
    obtain ⟨-, hcarried⟩ := carried_of_isOrdinary b hrule
      (by simp only [isOrdinary, hname, Bool.true_or])
    simp only [isCarried, hname, Bool.not_true, Bool.false_or, Bool.and_eq_true] at hcarried
    obtain ⟨⟨⟨⟨hbody, -⟩, -⟩, -⟩, -⟩ := hcarried
    exact hbody
  shared := by
    intro rule hrule hname
    obtain ⟨hother, hcarried⟩ := carried_of_isOrdinary b hrule
      (by simp only [isOrdinary, hname, Bool.or_true, Bool.true_or])
    simp only [isCarried, hname, Bool.not_true, Bool.false_or, Bool.and_eq_true] at hcarried
    obtain ⟨⟨⟨⟨-, hbody⟩, -⟩, -⟩, -⟩ := hcarried
    exact ⟨hother, hbody⟩

end CartLua.Dialect
