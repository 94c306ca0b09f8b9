import CartLua.Dialect.Chain
import CartLua.Dialect.Expression

/-!
# Statements of Lua

The statements and the whole program.  In the dialect an `if` commits only once
its `then` is seen, so that the short form can be tried after it.
-/

namespace CartLua.Dialect

open Pattern

def statementReturn : Rule :=
  { name := "statement_return"
    body :=
      inOrder [padOpt (call "expr_list_must") (call "sep"), optional [one ";", gap]] }

def labelStatement : Rule :=
  { name := "label_statement"
    body := ifMust (text "::") [gap, call "name", gap, text "::"] }

def gotoStatement : Rule :=
  { name := "goto_statement"
    body := ifMust (key "goto") [gap, call "name"] }

def doStatement : Rule :=
  { name := "do_statement"
    body := ifMust (key "do") [statementList (key "end")] }

def whileStatement : Rule :=
  { name := "while_statement"
    body :=
      ifMust (key "while") [gap, call "expression", gap, key "do", statementList (key "end")] }

def repeatStatement : Rule :=
  { name := "repeat_statement"
    body := ifMust (key "repeat") [statementList (key "until"), gap, call "expression"] }

/-- The end of a branch of an `if`. -/
def branchEnd : Pattern := beforeKeyword ["elseif", "else", "end"]

def elseifStatement : Rule :=
  { name := "elseif_statement"
    body :=
      ifMust (key "elseif") [gap, call "expression", gap, key "then", statementList branchEnd] }

def elseStatement : Rule :=
  { name := "else_statement"
    body := ifMust (key "else") [statementList (key "end")] }

def branches : List Pattern :=
  [statementList branchEnd, gap,
    untilMatch (choice [call "else_statement", key "end"]) [call "elseif_statement", gap]]

def ifStatement (dialect : Dialect) : Rule :=
  { name := "if_statement"
    body :=
      match dialect with
      | .canonical =>
          ifMust (key "if") ([gap, call "expression", gap, key "then"] ++ branches)
      | .pico8 =>
          ifMust (inOrder [key "if", gap, call "expression", gap, key "then"]) branches }

/-- Blanks within a line. -/
def inlineSpace : Rule :=
  { name := "inline_space"
    body := many1 [one " \t"]
    padding := true }

/-- The end of a short `if`: of the line or the text, a comment, or the keyword
`end`. -/
def shortIfEnd : Pattern := choice [endOfLineOrInput, text "--", key "end"]

/-- A piece of the body of a short `if`. -/
def shortIfToken : Pattern :=
  choice [call "literal_string", identifier, call "inline_space", noneOf "\r\n"]

/-- An `if` on one line without `then`.  Its body is taken as it stands. -/
def shortIfStatement : Rule :=
  { name := "short_if_statement"
    body :=
      inOrder
        [key "if", gap, call "bracket_expr", optional [call "inline_space"],
          notAhead [key "then"], many1 [notAhead [shortIfEnd], shortIfToken]] }

/-- A loop over numbers. -/
def forStatementOne : Rule :=
  { name := "for_statement_one"
    body :=
      inOrder
        [call "name", gap, one "=", gap, call "expression", gap, one ",", gap,
          call "expression", padOpt (ifMust (one ",") [gap, call "expression"]) (call "sep"),
          key "do", statementList (key "end")] }

/-- A loop over an iterator. -/
def forStatementTwo : Rule :=
  { name := "for_statement_two"
    body :=
      inOrder
        [call "name_list_must", gap, key "in", gap, call "expr_list_must", gap, key "do",
          statementList (key "end")] }

def forStatement : Rule :=
  { name := "for_statement"
    body :=
      ifMust (key "for") [gap, choice [call "for_statement_one", call "for_statement_two"]] }

def functionName : Rule :=
  { name := "function_name"
    body :=
      inOrder
        [listOf (call "name") (one ".") (call "sep"), gap,
          optional [ifMust (one ":") [gap, call "name", gap]]] }

def functionDefinition : Rule :=
  { name := "function_definition"
    body := ifMust (key "function") [gap, call "function_name", call "function_body"] }

def localFunction : Rule :=
  { name := "local_function"
    body := ifMust (key "function") [gap, call "name", gap, call "function_body"] }

def localVariables : Rule :=
  { name := "local_variables"
    body := ifMust (call "name_list_must") [gap, optional [call "assignments_one"]] }

def localStatement : Rule :=
  { name := "local_statement"
    body :=
      ifMust (key "local") [gap, choice [call "local_function", call "local_variables"]] }

def semicolon : Rule :=
  { name := "semicolon"
    body := one ";" }

/-- Any statement but `return`. -/
def statement (dialect : Dialect) : Rule :=
  { name := "statement"
    body :=
      choice
        ([call "semicolon", call "chain_statement", call "label_statement", key "break",
          call "goto_statement", call "do_statement", call "while_statement",
          call "repeat_statement", call "if_statement"] ++
          dialect.extension [call "short_if_statement"] ++
          [call "for_statement", call "function_definition", call "local_statement"]) }

def rootName : String := "grammar"

def program : Rule :=
  { name := rootName
    body := mustAll [optional [call "interpreter"], statementList endOfInput] }

/-- The rules of statements before those that begin with a chain. -/
def blockRules (dialect : Dialect) : List Rule :=
  [statementReturn, labelStatement, gotoStatement, doStatement, whileStatement, repeatStatement,
    elseifStatement, elseStatement, ifStatement dialect] ++
    dialect.extension [inlineSpace, shortIfStatement] ++
    [forStatementOne, forStatementTwo, forStatement]

/-- The rules of statements after those that begin with a chain. -/
def definitionRules (dialect : Dialect) : List Rule :=
  [functionName, functionDefinition, localFunction, localVariables, localStatement, semicolon,
    statement dialect, program]

end CartLua.Dialect
