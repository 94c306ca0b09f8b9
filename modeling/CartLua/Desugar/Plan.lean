import CartLua.Desugar.Edit
import CartLua.Desugar.Error
import CartLua.Desugar.OneLine
import CartLua.Occurrence.Record
import CartLua.Source

/-!
# Desugaring occurrences

    a != b     becomes  a ~= b
    a += b     becomes  a =a +( b)

An occurrence inside a compound assignment is desugared together with it, so the
edits of a plan never overlap.  What follows an occurrence is copied as it is:
trailing comments stay outside the brackets.

The second copy of a target stands on one line.  Its comments become spaces, its
line breaks become spaces, and a string literal that spans lines is written with
escapes.  The output therefore has as many lines as the text.
-/

namespace CartLua

namespace Desugar

/-- The characters that can stand before the sign of a compound assignment. -/
def operators : List Char := ['+', '-', '*', '/', '%']

def isSugar (o : Occurrence) : Bool := o.kind == .notEqual || o.kind == .reassignment

/-- Check that an occurrence lies where its line and column say, and inside the
text. -/
def checkPosition (source : Source) (o : Occurrence) : Except PlanFailure Unit :=
  let (line, column) := source.lineAndColumn o.offset
  if o.line = line ∧ o.column = column ∧ o.stop ≤ source.length then .ok ()
  else
    .error (.record (.stalePosition (toString o.line ++ ":" ++ toString o.column)
      (source.location o.offset)))

def overlap (source : Source) (outer inner : Occurrence) : PlanFailure :=
  .record (.overlap (String.ofList outer.text) (String.ofList inner.text)
    (source.location inner.offset))

def noOperator (source : Source) (o : Occurrence) : PlanFailure :=
  .record (.missingOperator (String.ofList o.text) (source.location o.offset))

/-- The position of the operator of a compound assignment, checked against the
text, with the character that stands there. -/
def findOperator (source : Source) (o : Occurrence) : Except PlanFailure (Int × Char) :=
  match o.operator with
  | some operator =>
      if o.offset < operator ∧ operator + 2 ≤ o.stop then
        match Position.char? source.text operator with
        | some c =>
            if operators.contains c && Position.char? source.text (operator + 1) == some '=' then
              .ok (operator, c)
            else .error (noOperator source o)
        | none => .error .operatorOutside
      else .error (noOperator source o)
  | none => .error (noOperator source o)

/-- The replacement of a comment or string that has to stand on one line, or
nothing when it may stay. -/
def flatLexeme (kind : LexemeKind) (text : List Char) : Except PlanFailure (Option (List Char)) :=
  match kind with
  | .comment => .ok (some [' '])
  | _ =>
      match OneLine.flatString? text with
      | some replacement => .ok replacement
      | none => .error .malformedLiteral

/-- The edits that bring the comments and strings of a range onto one line, except
where an edit covers them already. -/
def layoutEdits (source : Source) (start stop : Int) (edits : List Edit) :
    List Lexeme → Except PlanFailure (List Edit)
  | [] => .ok []
  | lexeme :: layout => do
      if lexeme.offset < start || stop < lexeme.stop ||
          edits.any (fun edit => edit.start ≤ lexeme.offset && lexeme.offset < edit.stop) then
        layoutEdits source start stop edits layout
      else
        match ← flatLexeme lexeme.kind (source.piece lexeme.offset lexeme.stop) with
        | some replacement =>
            let rest ← layoutEdits source start stop edits layout
            .ok (⟨lexeme.offset, lexeme.stop, replacement⟩ :: rest)
        | none => layoutEdits source start stop edits layout

def sortEdits (edits : List Edit) : List Edit := sortBy (fun a b => a.start ≤ b.start) edits

/-- A range with the edits of its occurrences.  With a layout, the comments and
strings of the range, the result stands on one line. -/
def render (source : Source) (start stop : Int) (edits : List Edit)
    (layout : Option (List Lexeme)) : Except PlanFailure (List Char) :=
  match layout with
  | none => .ok (Edit.splice source.text Edit.keep stop start edits)
  | some layout => do
      let flattened ← layoutEdits source start stop edits layout
      .ok (Edit.splice source.text OneLine.spaced stop start (sortEdits (edits ++ flattened)))

def notEqualEdit (source : Source) (o : Occurrence) (nested : List Occurrence) :
    Except PlanFailure Edit :=
  let found := source.piece o.offset (o.offset + 2)
  if found = ['!', '='] then
    match nested with
    | [] => .ok ⟨o.offset, o.offset + 2, ['~', '=']⟩
    | inner :: _ => .error (overlap source o inner)
  else
    .error (.record (.tokenMismatch "!=" (String.ofList found) (source.location o.offset)))

def besideOperator (operator : Int) (inner : Occurrence) : Bool :=
  decide (inner.stop ≤ operator) || decide (operator + 2 ≤ inner.offset)

/-- The edit of a compound assignment, when `editsOf` makes the edits of the
occurrences inside it. -/
def reassignmentEdit (source : Source)
    (editsOf : List Occurrence → Option (List Lexeme) → Except PlanFailure (List Edit))
    (o : Occurrence) (nested : List Occurrence) (layout : Option (List Lexeme)) :
    Except PlanFailure Edit := do
  let (operator, mark) ← findOperator source o
  match nested.find? fun inner => !besideOperator operator inner with
  | some inner => .error (overlap source o inner)
  | none =>
      let inTarget := nested.filter fun inner => inner.stop ≤ operator
      let inValue := nested.filter fun inner => operator < inner.stop
      let part (start stop : Int) (inside : List Occurrence) (layout : Option (List Lexeme)) :
          Except PlanFailure (List Char) := do
        render source start stop (← editsOf inside layout) layout
      let target ← part o.offset operator inTarget layout
      let copy ← match layout with
        | none => part o.offset operator inTarget (some o.layout)
        | some _ => .ok target
      let value ← part (operator + 2) o.stop inValue layout
      .ok ⟨o.offset, o.stop,
        target ++ '=' :: (copy ++ mark :: '(' :: (value ++ [')']))⟩

/-- The edits of sorted occurrences.  Every occurrence takes those that begin
inside it along.  There are fewer of them each time, so `steps` need not exceed
the number of occurrences. -/
def edits (source : Source) :
    (steps : Nat) → List Occurrence → Option (List Lexeme) → Except PlanFailure (List Edit)
  | 0, _, _ => .ok []
  | _ + 1, [], _ => .ok []
  | steps + 1, outer :: rest, layout => do
      let nested := rest.takeWhile fun inner => inner.offset < outer.stop
      let others := rest.dropWhile fun inner => inner.offset < outer.stop
      match nested.find? fun inner => outer.stop < inner.stop with
      | some inner => .error (overlap source outer inner)
      | none =>
          let edit ←
            match outer.kind with
            | .notEqual => notEqualEdit source outer nested
            | _ => reassignmentEdit source (edits source steps) outer nested layout
          let rest ← edits source steps others layout
          .ok (edit :: rest)

/-- The edits that desugar the occurrences of a source, from left to right. -/
def plan (source : Source) (occurrences : List Occurrence) : Except PlanFailure (List Edit) := do
  let sugar := occurrences.filter isSugar
  sugar.forM (checkPosition source)
  edits source sugar.length (Occurrence.sort sugar) none

def applyingEntry (edits : List Edit) : String :=
  "Applying " ++ toString edits.length ++ " edits"

end Desugar

end CartLua
