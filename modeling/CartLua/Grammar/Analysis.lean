import CartLua.Grammar.Basic
import CartLua.Grammar.Defect
import CartLua.Sorting

/-!
# Self-check of grammars

Before a grammar meets any text it is examined for references to rules that do
not exist, rules that are never used, loops over patterns that can match nothing,
and left recursion.  The last two would keep the matcher busy for ever.
-/

namespace CartLua

namespace Pattern

mutual

/-- Whether a pattern can match without taking anything, when the known rules
can. -/
def nullable (known : List String) : Pattern → Bool
  | terminal t => t.nullable
  | seq items => allNullable known items
  | choice alternatives => anyNullable known alternatives
  | star .. => true
  | plus _ body => body.nullable known
  | opt _ => true
  | atMost .. => true
  | lookahead .. => true
  | skipTo stop => stop.nullable known
  | repeatUntil _ stop _ => stop.nullable known
  | must body => body.nullable known
  | rule name => known.contains name
  | ref _ name => known.contains name

def allNullable (known : List String) : List Pattern → Bool
  | [] => true
  | item :: items => item.nullable known && allNullable known items

def anyNullable (known : List String) : List Pattern → Bool
  | [] => false
  | item :: items => item.nullable known || anyNullable known items

end

mutual

/-- The rules that may be tried before a pattern has taken anything, when the
known rules can match without taking anything. -/
def firstCalls (known : List String) : Pattern → List String
  | terminal _ => []
  | seq items => firstCallsInOrder known items
  | choice alternatives => firstCallsOfAll known alternatives
  | star _ body => body.firstCalls known
  | plus _ body => body.firstCalls known
  | opt body => body.firstCalls known
  | atMost _ body => body.firstCalls known
  | lookahead _ body => body.firstCalls known
  | skipTo stop => stop.firstCalls known
  | repeatUntil _ stop body => stop.firstCalls known ++ body.firstCalls known
  | must body => body.firstCalls known
  | rule name => [name]
  | ref _ name => [name]

/-- The rules tried first by patterns in order: those of each one up to the first
that must take something. -/
def firstCallsInOrder (known : List String) : List Pattern → List String
  | [] => []
  | item :: items =>
      item.firstCalls known ++
        if item.nullable known then firstCallsInOrder known items else []

def firstCallsOfAll (known : List String) : List Pattern → List String
  | [] => []
  | item :: items => item.firstCalls known ++ firstCallsOfAll known items

end

def mentions (body : Pattern) : List String :=
  body.examined.filterMap fun p =>
    match p with
    | .rule name => some name
    | .ref _ name => some name
    | _ => none

end Pattern

namespace Grammar

def nullableRound (g : Grammar) (known : List String) : List String :=
  (g.rules.filter fun rule => rule.body.nullable known).map Rule.name

def nullableAfter (g : Grammar) : (rounds : Nat) → List String
  | 0 => []
  | rounds + 1 => g.nullableRound (g.nullableAfter rounds)

/-- The rules that can match without taking anything.  Every round that is not the
last finds another rule, so there are no more rounds than rules. -/
def nullableRules (g : Grammar) : List String := g.nullableAfter g.rules.length

def mentionsOf (g : Grammar) (name : String) : List String :=
  match g.rule? name with
  | some rule => rule.body.mentions
  | none => []

/-- The names among `remaining` that lead from the pending ones along `next`. -/
def gather (next : String → List String) :
    (steps : Nat) → (remaining pending : List String) → List String
  | 0, _, _ => []
  | steps + 1, remaining, pending =>
      match pending.filter remaining.contains with
      | [] => []
      | name :: rest => name :: gather next steps (remaining.erase name) (next name ++ rest)

def reachable (g : Grammar) : List String :=
  gather g.mentionsOf g.rules.length g.ruleNames [g.root]

/-- The rules that a rule may enter before it has taken anything. -/
def leftCalls (g : Grammar) (known : List String) (name : String) : List String :=
  match g.rule? name with
  | some rule => sortedNames ((rule.body.firstCalls known).filter g.defines)
  | none => []

/-- The search for cycles: the names that are finished and the cycles found. -/
structure CycleSearch where
  finished : List String
  /-- The cycles, the last one first. -/
  found : List (String × List String)

def sameNames (a b : List String) : Bool :=
  a.length == b.length && a.all b.contains

/-- Add a cycle, unless one over the same names is known. -/
def CycleSearch.add (search : CycleSearch) (first : String) (rest : List String) : CycleSearch :=
  if search.found.any fun cycle => sameNames (cycle.1 :: cycle.2) (first :: rest) then search
  else { search with found := (first, rest) :: search.found }

/-- Follow the calls of a name.  `path` leads to it, the last name first. -/
def visit (next : String → List String) :
    (steps : Nat) → (path : List String) → (name : String) → CycleSearch → CycleSearch
  | 0, _, _, search => search
  | steps + 1, path, name, search =>
      if search.finished.contains name then search
      else if path.contains name then
        search.add name (path.takeWhile (· != name)).reverse
      else
        let search :=
          (next name).foldl
            (fun search callee => visit next steps (name :: path) callee search) search
        { search with finished := name :: search.finished }

def leftCycles (g : Grammar) (known : List String) : List (String × List String) :=
  (g.ruleNames.foldl
    (fun search name => visit (g.leftCalls known) (g.rules.length + 1) [] name search)
    { finished := [], found := [] }).found.reverse

def undefinedReferences (g : Grammar) (rule : Rule) : List Flaw :=
  rule.body.examined.filterMap fun p =>
    match p with
    | .ref _ name => if g.defines name then none else some (.undefinedReference rule.name name)
    | _ => none

def emptyLoops (known : List String) (rule : Rule) : List Flaw :=
  rule.body.examined.filterMap fun p =>
    match p with
    | .star _ body =>
        if body.nullable known then some (.emptyLoop rule.name body.describe) else none
    | .plus _ body =>
        if body.nullable known then some (.emptyLoop rule.name body.describe) else none
    | .repeatUntil _ _ body =>
        if body.nullable known then some (.emptyUntil rule.name body.describe) else none
    | _ => none

def unreachableRules (g : Grammar) : List Flaw :=
  let reached := g.reachable
  (g.ruleNames.filter fun name => !reached.contains name).map fun name =>
    .unreachable name g.root

end Grammar

structure GrammarReport where
  grammar : String
  ruleCount : Nat
  flaws : List Flaw
  nullable : List String
  deriving DecidableEq, Repr, Inhabited

namespace GrammarReport

def defects (report : GrammarReport) : List Defect := report.flaws.map Flaw.defect

def hasErrors (report : GrammarReport) : Bool := !report.flaws.isEmpty

end GrammarReport

namespace Grammar

/-- Examine a grammar.  Without a root there is nothing more to examine. -/
def analyze (g : Grammar) : GrammarReport :=
  if g.defines g.root then
    let known := g.nullableRules
    { grammar := g.name
      ruleCount := g.rules.length
      flaws :=
        g.rules.flatMap g.undefinedReferences ++ g.unreachableRules ++
          g.rules.flatMap (emptyLoops known) ++
          (g.leftCycles known).map fun cycle => .leftRecursion cycle.1 cycle.2
      nullable := sortedNames known }
  else
    { grammar := g.name
      ruleCount := g.rules.length
      flaws := [.missingRoot g.root]
      nullable := [] }

/-- Mark a grammar as checked, unless the examination finds flaws. -/
def check (g : Grammar) : Except GrammarError { checked : Grammar // checked.checked = true } :=
  let report := g.analyze
  if report.hasErrors then .error ⟨g.name, report.defects⟩
  else .ok ⟨{ g with checked := true }, rfl⟩

/-- A grammar passes its check exactly when it has no flaws. -/
theorem check_isOk_iff (g : Grammar) : g.check.isOk = true ↔ g.analyze.flaws = [] := by
  by_cases hflaws : g.analyze.flaws = []
  · simp [check, GrammarReport.hasErrors, hflaws, Except.isOk, Except.toBool]
  · simp [check, GrammarReport.hasErrors, hflaws, Except.isOk, Except.toBool]

end Grammar

end CartLua
