import CartLua.Dialect.Basic
import CartLua.Dialect.Lexical

/-!
# Chains

A chain such as `( a * b ).c()[ d ].e:f()` begins with a name or a bracket and
goes on with call tails and variable tails.  Only its last element decides between
a call and a variable.

A statement that begins with a chain walks it once, by continuation rules named
after the element seen last: after a variable an assignment must follow, after a
call the statement may end.  Tails are never matched a second time.
-/

namespace CartLua.Dialect

open Pattern

def variableTailOne : Rule :=
  { name := "variable_tail_one"
    body := ifMust (one "[") [gap, call "expression", gap, one "]"] }

def variableTailTwo : Rule :=
  { name := "variable_tail_two"
    body := ifMust (inOrder [notAhead [text ".."], one "."]) [gap, call "name"] }

def variableTail : Rule :=
  { name := "variable_tail"
    body := choice [call "variable_tail_one", call "variable_tail_two"] }

def functionCallTailOne : Rule :=
  { name := "function_call_tail_one"
    body :=
      ifMust (inOrder [notAhead [text "::"], one ":"])
        [gap, call "name", gap, call "function_args"] }

def functionCallTail : Rule :=
  { name := "function_call_tail"
    body := choice [call "function_args", call "function_call_tail_one"] }

/-- A bracket with its first tail. -/
def variableHeadOne : Rule :=
  { name := "variable_head_one"
    body := inOrder [call "bracket_expr", gap, call "variable_tail"] }

def variableHead : Rule :=
  { name := "variable_head"
    body := choice [call "name", call "variable_head_one"] }

/-- A variable, which ends on a variable tail. -/
def variableRule : Rule :=
  { name := "variable"
    body :=
      inOrder
        [call "variable_head",
          many [many [gap, call "function_call_tail"], gap, call "variable_tail"]] }

/-- A call tail and what may follow it. -/
def callLink : Pattern := inOrder [call "function_call_tail", call "call_continuation"]

/-- A variable tail and what must follow it. -/
def variableLink : Pattern := inOrder [call "variable_tail", call "variable_continuation"]

def assignmentsOne : Rule :=
  { name := "assignments_one"
    body := ifMust (one "=") [gap, call "expr_list_must"] }

def variableContinuation (dialect : Dialect) : Rule :=
  { name := "variable_continuation"
    body :=
      inOrder
        [gap,
          choice
            ([callLink, variableLink, call "assignments"] ++
              dialect.extension [call "reassignment"])] }

def callContinuation : Rule :=
  { name := "call_continuation"
    body := optional [gap, choice [callLink, variableLink]] }

def bracketContinuation : Rule :=
  { name := "bracket_continuation"
    body := inOrder [gap, choice [callLink, variableLink]] }

/-- The rest of an assignment after its first variable. -/
def assignments : Rule :=
  { name := "assignments"
    body :=
      inOrder
        [many [ifMust (pad (one ",") (call "sep")) [call "variable"]], gap,
          call "assignments_one"] }

def operatorsReassign : Rule :=
  { name := "operators_reassign"
    body := choice (reassignmentOperators.map text) }

/-- The rest of a compound assignment, reported from the beginning of its
chain. -/
def reassignment : Rule :=
  { name := "reassignment"
    body := inOrder [call "operators_reassign", gap, call "expr_list_must"]
    anchored := true }

def chainStatement : Rule :=
  { name := "chain_statement"
    body :=
      choice
        [inOrder [call "name", call "variable_continuation"],
          inOrder [call "bracket_expr", call "bracket_continuation"]]
    anchor := true }

def chainRules : List Rule :=
  [variableTailOne, variableTailTwo, variableTail, functionCallTailOne, functionCallTail,
    variableHeadOne, variableHead, variableRule]

/-- The rules of statements that begin with a chain. -/
def chainStatementRules (dialect : Dialect) : List Rule :=
  [assignmentsOne, variableContinuation dialect, callContinuation, bracketContinuation,
    assignments] ++
    dialect.extension [operatorsReassign, reassignment] ++ [chainStatement]

end CartLua.Dialect
