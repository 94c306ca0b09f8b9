import Std.Data.HashMap
import CartLua.Grammar.Pattern

/-!
# Grammars

A grammar is a list of named rules with a root.  Rules refer to each other by
name, also to rules defined later; linking fixes what each reference made so far
stands for.
-/

namespace CartLua

/-- A named pattern.

A padding rule consumes blanks and comments, which never end a token.  No
captures are reported from inside a quiet rule.  An anchor remembers where it
begins, and an anchored rule reports its match from the innermost anchor around
it. -/
structure Rule where
  name : String
  body : Pattern
  padding : Bool := false
  quiet : Bool := false
  anchor : Bool := false
  anchored : Bool := false
  deriving Repr, Inhabited

/-- The rules by name; of two rules with one name the first counts. -/
def ruleIndex (rules : List Rule) : Std.HashMap String Rule :=
  rules.foldr (fun rule index => index.insert rule.name rule) ∅

theorem getElem?_ruleIndex (rules : List Rule) (name : String) :
    (ruleIndex rules)[name]? = rules.find? fun rule => rule.name == name := by
  induction rules with
  | nil => simp [ruleIndex]
  | cons rule rules ih =>
      have hcons : ruleIndex (rule :: rules) = (ruleIndex rules).insert rule.name rule := rfl
      rw [hcons, Std.HashMap.getElem?_insert, List.find?_cons, ih]
      by_cases hname : (rule.name == name) = true <;> simp [hname]

/-- Rules that refer to each other by name. -/
structure Grammar where
  name : String
  root : String
  keywords : List String
  rules : List Rule
  /-- The names that references were made for, in the order of their making. -/
  references : List String
  /-- The number of sites given out. -/
  sites : Nat
  /-- The number of sites given out when the grammar was last linked. -/
  linkedSites : Nat
  /-- The rules when the grammar was last linked. -/
  linkedRules : List Rule
  checked : Bool
  index : Std.HashMap String Rule
  index_eq : index = ruleIndex rules
  /-- The rules by name when the grammar was last linked. -/
  linkedIndex : Std.HashMap String Rule
  linkedIndex_eq : linkedIndex = ruleIndex linkedRules

/-- A rule under a name that its grammar has given to another one. -/
structure DuplicateRule where
  rule : String
  grammar : String
  deriving DecidableEq, Repr, Inhabited

def DuplicateRule.message (e : DuplicateRule) : String :=
  "rule '" ++ e.rule ++ "' defined twice in grammar " ++ e.grammar

namespace Grammar

def empty (name root : String) (keywords : List String) : Grammar where
  name := name
  root := root
  keywords := keywords
  rules := []
  references := []
  sites := 0
  linkedSites := 0
  linkedRules := []
  checked := false
  index := ruleIndex []
  index_eq := rfl
  linkedIndex := ruleIndex []
  linkedIndex_eq := rfl

/-- A linked grammar with these rules. -/
def ofRules (name root : String) (keywords : List String) (rules : List Rule) : Grammar :=
  { empty name root keywords with
    rules := rules
    linkedRules := rules
    index := ruleIndex rules
    index_eq := rfl
    linkedIndex := ruleIndex rules
    linkedIndex_eq := rfl }

def rule? (g : Grammar) (name : String) : Option Rule := g.index[name]?

def defines (g : Grammar) (name : String) : Bool := (g.rule? name).isSome

def ruleNames (g : Grammar) : List String := g.rules.map Rule.name

/-- Looking a rule up finds the first one with the name. -/
theorem rule?_eq_find? (g : Grammar) (name : String) :
    g.rule? name = g.rules.find? fun rule => rule.name == name := by
  rw [rule?, g.index_eq, getElem?_ruleIndex]

@[simp]
theorem rules_ofRules (name root : String) (keywords : List String) (rules : List Rule) :
    (ofRules name root keywords rules).rules = rules := rfl

/-- Make a reference to a rule, which need not be defined yet. -/
def refer (g : Grammar) (name : String) : Pattern × Grammar :=
  (.ref (some g.sites) name,
    { g with references := g.references ++ [name], sites := g.sites + 1 })

/-- Number the loops of a pattern that have no site yet. -/
def place (g : Grammar) (p : Pattern) : Pattern × Grammar :=
  let (numbered, sites) := p.number g.sites
  (numbered, { g with sites := sites })

/-- Add a rule.  There is no result when the name is taken. -/
def define? (g : Grammar) (rule : Rule) : Option Grammar :=
  if g.defines rule.name then none
  else
    some
      { g with
        rules := g.rules ++ [rule]
        index := ruleIndex (g.rules ++ [rule])
        index_eq := rfl }

/-- Add a rule, or say why its name is refused. -/
def define (g : Grammar) (rule : Rule) : Except DuplicateRule Grammar :=
  match g.define? rule with
  | some extended => .ok extended
  | none => .error ⟨rule.name, g.name⟩

theorem define_eq_ok_iff {g extended : Grammar} {rule : Rule} :
    g.define rule = .ok extended ↔ g.define? rule = some extended := by
  rw [define]
  cases g.define? rule <;> simp

/-- Only a name that is taken is refused, and the error names it and the grammar. -/
theorem define_eq_error_iff {g : Grammar} {rule : Rule} {e : DuplicateRule} :
    g.define rule = .error e ↔ g.defines rule.name = true ∧ e = ⟨rule.name, g.name⟩ := by
  rw [define, define?]
  by_cases htaken : g.defines rule.name = true
  · simp [htaken, eq_comm]
  · simp [htaken]

/-- Let every reference made so far stand for the rule of its name. -/
def link (g : Grammar) : Grammar :=
  { g with
    linkedSites := g.sites
    linkedRules := g.rules
    linkedIndex := g.index
    linkedIndex_eq := g.index_eq }

/-- The names of references without a rule, in the order of their making. -/
def missing (g : Grammar) : List String :=
  g.references.filter fun name => !g.defines name

/-- Whether a reference stands for a rule: it was made before the grammar was last
linked, and so was the rule. -/
def isLinked (g : Grammar) (site : Site) (name : String) : Bool :=
  (match site with
    | some site => site < g.linkedSites
    | none => true) &&
    g.linkedIndex.contains name

/-- In a grammar made of all its rules at once a reference without a site is linked
when its rule exists. -/
theorem isLinked_ofRules (name root : String) (keywords : List String) (rules : List Rule)
    (target : String) :
    (ofRules name root keywords rules).isLinked none target =
      (ofRules name root keywords rules).defines target := by
  simp [isLinked, defines, rule?, ofRules]

/-- The parts of a pattern, where a rule has its body and a linked reference its
rule. -/
def partsOf (g : Grammar) : Pattern → List Pattern
  | .rule name => ((g.rule? name).map Rule.body).toList
  | .ref site name => if g.isLinked site name then [.rule name] else []
  | p => p.parts

end Grammar

end CartLua
