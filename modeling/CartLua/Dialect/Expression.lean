import CartLua.Dialect.Basic
import CartLua.Dialect.Lexical

/-!
# Expressions of Lua

Precedence and associativity are written as thirteen tiers, from `expr_thirteen`,
which binds tightest, to `expression`.  A tier of left-associative operators is an
operand followed by operators with operands.  A right-associative tier uses itself
after its operator.  No tier begins with itself.
-/

namespace CartLua.Dialect

open Pattern

/-! ## Lists -/

def nameList : Rule :=
  { name := "name_list"
    body := listOf (call "name") (one ",") (call "sep") }

/-- Names between commas; a comma commits to a name. -/
def nameListMust : Rule :=
  { name := "name_list_must"
    body := listMust (call "name") (one ",") (call "sep") }

def exprListMust : Rule :=
  { name := "expr_list_must"
    body := listMust (call "expression") (one ",") (call "sep") }

/-! ## Blocks -/

/-- Statements up to `stop`.  A return statement must be the last one. -/
def statementList (stop : Pattern) : Pattern :=
  inOrder
    [gap,
      untilMatch (choice [stop, ifMust (key "return") [call "statement_return", stop]])
        [call "statement", gap]]

/-! ## Tables and functions -/

/-- A field with an expression for a key.  The bracket must not open a long
string. -/
def tableFieldOne : Rule :=
  { name := "table_field_one"
    body :=
      ifMust (inOrder [one "[", notAhead [one "[="]])
        [gap, call "expression", gap, one "]", gap, one "=", gap, call "expression"] }

def tableFieldTwo : Rule :=
  { name := "table_field_two"
    body :=
      ifMust (inOrder [call "name", gap, operatorOne "=" "="]) [gap, call "expression"] }

def tableField : Rule :=
  { name := "table_field"
    body := choice [call "table_field_one", call "table_field_two", call "expression"] }

def tableFieldList : Rule :=
  { name := "table_field_list"
    body := listTail (call "table_field") (one ",;") (call "sep") }

def tableConstructor : Rule :=
  { name := "table_constructor"
    body := ifMust (one "\x7b") [padOpt (call "table_field_list") (call "sep"), one "\x7d"] }

def parameterListOne : Rule :=
  { name := "parameter_list_one"
    body :=
      inOrder
        [call "name_list", optional [ifMust (pad (one ",") (call "sep")) [call "three_dots"]]] }

def parameterList : Rule :=
  { name := "parameter_list"
    body := choice [call "three_dots", call "parameter_list_one"] }

def functionBody : Rule :=
  { name := "function_body"
    body :=
      inOrder
        [one "(", padOpt (call "parameter_list") (call "sep"), one ")", gap,
          statementList (key "end")] }

def functionLiteral : Rule :=
  { name := "function_literal"
    body := ifMust (key "function") [gap, call "function_body"] }

def bracketExpr : Rule :=
  { name := "bracket_expr"
    body := ifMust (one "(") [gap, call "expression", gap, one ")"] }

def functionArgsOne : Rule :=
  { name := "function_args_one"
    body := ifMust (one "(") [padOpt (call "expr_list_must") (call "sep"), one ")"] }

def functionArgs : Rule :=
  { name := "function_args"
    body := choice [call "function_args_one", call "table_constructor", call "literal_string"] }

/-! ## Operators and tiers -/

def unaryOperators : Rule :=
  { name := "unary_operators"
    body := choice [one "-", one "#", operatorOne "~" "=", key "not"] }

/-- A name or a bracket with any number of call and variable tails. -/
def exprThirteen : Rule :=
  { name := "expr_thirteen"
    body :=
      inOrder
        [choice [call "bracket_expr", call "name"],
          many [gap, choice [call "function_call_tail", call "variable_tail"]]] }

/-- A single value. -/
def exprTwelve : Rule :=
  { name := "expr_twelve"
    body :=
      choice
        [key "nil", key "true", key "false", call "three_dots", call "numeral",
          call "literal_string", call "function_literal", call "expr_thirteen",
          call "table_constructor"] }

/-- Powers. -/
def exprEleven : Rule :=
  { name := "expr_eleven"
    body :=
      inOrder [call "expr_twelve", gap, optional [one "^", gap, call "expr_ten", gap]] }

def unaryApply : Rule :=
  { name := "unary_apply"
    body := ifMust (call "unary_operators") [gap, call "expr_ten", gap] }

/-- Powers with operators before them. -/
def exprTen : Rule :=
  { name := "expr_ten"
    body := choice [call "unary_apply", call "expr_eleven"] }

/-- Operands of one tier with operators between them. -/
def leftAssociative (operand : String) (operator : Pattern) : Pattern :=
  inOrder [call operand, gap, many [ifMust operator [gap, call operand, gap]]]

/-- An operand, and perhaps an operator followed by the same tier again. -/
def rightAssociative (tier operand : String) (operator : Pattern) : Pattern :=
  inOrder [call operand, gap, optional [ifMust operator [gap, call tier]]]

def operatorsNine : Rule :=
  { name := "operators_nine"
    body := choice [text "//", one "/", one "*", one "%"] }

/-- Products. -/
def exprNine : Rule :=
  { name := "expr_nine"
    body := leftAssociative "expr_ten" (call "operators_nine") }

def operatorsEight : Rule :=
  { name := "operators_eight"
    body := choice [one "+", one "-"] }

/-- Sums. -/
def exprEight : Rule :=
  { name := "expr_eight"
    body := leftAssociative "expr_nine" (call "operators_eight") }

/-- Concatenations. -/
def exprSeven : Rule :=
  { name := "expr_seven"
    body := rightAssociative "expr_seven" "expr_eight" (operatorText ".." ".") }

def operatorsSix : Rule :=
  { name := "operators_six"
    body := choice [text "<<", text ">>"] }

/-- Shifts. -/
def exprSix : Rule :=
  { name := "expr_six"
    body := leftAssociative "expr_seven" (call "operators_six") }

/-- Bitwise conjunctions. -/
def exprFive : Rule :=
  { name := "expr_five"
    body := leftAssociative "expr_six" (one "&") }

/-- Bitwise exclusive disjunctions. -/
def exprFour : Rule :=
  { name := "expr_four"
    body := leftAssociative "expr_five" (operatorOne "~" "=") }

/-- Bitwise disjunctions. -/
def exprThree : Rule :=
  { name := "expr_three"
    body := leftAssociative "expr_four" (one "|") }

def operatorNotEqual : Rule :=
  { name := "operator_notequal"
    body := text "!=" }

def operatorsTwo (dialect : Dialect) : Rule :=
  { name := "operators_two"
    body :=
      choice
        ([text "==", text "<=", text ">=", operatorOne "<" "<", operatorOne ">" ">"] ++
          dialect.extension [call "operator_notequal"] ++ [text "~="]) }

/-- Comparisons. -/
def exprTwo : Rule :=
  { name := "expr_two"
    body := leftAssociative "expr_three" (call "operators_two") }

/-- Conjunctions. -/
def exprOne : Rule :=
  { name := "expr_one"
    body := leftAssociative "expr_two" (key "and") }

def expression : Rule :=
  { name := "expression"
    body := leftAssociative "expr_one" (key "or") }

def listRules : List Rule := [nameList, nameListMust, exprListMust]

def valueRules : List Rule :=
  [tableFieldOne, tableFieldTwo, tableField, tableFieldList, tableConstructor, parameterListOne,
    parameterList, functionBody, functionLiteral, bracketExpr, functionArgsOne, functionArgs]

def tierRules (dialect : Dialect) : List Rule :=
  [unaryOperators, exprThirteen, exprTwelve, exprEleven, unaryApply, exprTen, operatorsNine,
    exprNine, operatorsEight, exprEight, exprSeven, operatorsSix, exprSix, exprFive, exprFour,
    exprThree] ++
    dialect.extension [operatorNotEqual] ++ [operatorsTwo dialect, exprTwo, exprOne, expression]

end CartLua.Dialect
