import CartLua.Dialect.Statement
import CartLua.Parser

/-!
# The grammars of Lua

The grammar of each dialect, and a parser for it.
-/

namespace CartLua.Dialect

/-- The rules of a dialect in the order of their definition. -/
def rules (dialect : Dialect) : List Rule :=
  lexicalRules ++ listRules ++ valueRules ++ chainRules ++ tierRules dialect ++
    blockRules dialect ++ chainStatementRules dialect ++ definitionRules dialect

def grammarName : Dialect → String
  | canonical => "lua53"
  | pico8 => "lua53-pico8"

/-- The grammar of a dialect before its self-check. -/
def uncheckedGrammar (dialect : Dialect) : Grammar :=
  .ofRules dialect.grammarName rootName keywords dialect.rules

def canonicalGrammar : Grammar := { uncheckedGrammar canonical with checked := true }

def pico8Grammar : Grammar := { uncheckedGrammar pico8 with checked := true }

/-- The grammar of a dialect.  It passes its self-check. -/
def grammar : Dialect → Grammar
  | canonical => canonicalGrammar
  | pico8 => pico8Grammar

@[simp]
theorem checked_grammar (dialect : Dialect) : dialect.grammar.checked = true := by
  cases dialect <;> rfl

@[simp]
theorem rules_grammar (dialect : Dialect) : dialect.grammar.rules = dialect.rules := by
  cases dialect <;> rfl

def parser (dialect : Dialect) (nestingLimit : Int) : Parser :=
  ⟨dialect.grammar, nestingLimit, dialect.checked_grammar⟩

end CartLua.Dialect
