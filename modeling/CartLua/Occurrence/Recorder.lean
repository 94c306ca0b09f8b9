import CartLua.Journal
import CartLua.Occurrence.Record
import CartLua.Parser

/-!
# Recording occurrences during a match

The recorder is told of a rule as soon as it matches, also inside an alternative
that is given up later.  Whenever the cursor returns to an offset, everything
recorded at or after it belongs to text that is no longer part of the match, and
is dropped.
-/

namespace CartLua

structure Recorder where
  notEquals : OffsetLog Occurrence
  reassignments : OffsetLog Occurrence
  shortIfs : OffsetLog Occurrence
  lexemes : OffsetLog Lexeme
  /-- All occurrences ever recorded, the last one first. -/
  candidates : List Occurrence
  deriving Repr

namespace Recorder

def empty : Recorder where
  notEquals := .empty
  reassignments := .empty
  shortIfs := .empty
  lexemes := .empty
  candidates := []

def log (recorder : Recorder) : OccurrenceKind → OffsetLog Occurrence
  | .notEqual => recorder.notEquals
  | .reassignment => recorder.reassignments
  | .shortIf => recorder.shortIfs

def updateLog (recorder : Recorder) (kind : OccurrenceKind)
    (change : OffsetLog Occurrence → OffsetLog Occurrence) : Recorder :=
  match kind with
  | .notEqual => { recorder with notEquals := change recorder.notEquals }
  | .reassignment => { recorder with reassignments := change recorder.reassignments }
  | .shortIf => { recorder with shortIfs := change recorder.shortIfs }

/-- The occurrence that a capture shows.  A compound assignment is reported from
the beginning of its target, while its rule begins at the operator. -/
def occurrence (recorder : Recorder) (source : Source) (kind : OccurrenceKind) (c : Capture) :
    Occurrence :=
  let (line, column) := source.lineAndColumn c.start
  { kind := kind
    offset := c.start
    line := line
    column := column
    length := c.tokenEnd - c.start
    text := source.piece c.start c.tokenEnd
    operator := if kind = .reassignment then some c.ruleStart else none
    layout := if kind = .reassignment then recorder.lexemes.between c.start c.ruleStart else [] }

def addOccurrence (source : Source) (kind : OccurrenceKind) (c : Capture) (recorder : Recorder) :
    Recorder :=
  let found := recorder.occurrence source kind c
  let recorder := recorder.updateLog kind fun log => log.record found
  { recorder with candidates := found :: recorder.candidates }

def addLexeme (kind : LexemeKind) (c : Capture) (recorder : Recorder) : Recorder :=
  { recorder with lexemes := recorder.lexemes.record ⟨kind, c.start, c.stop⟩ }

def lexemeKind? (rule : String) : Option LexemeKind :=
  if rule = "comment" then some .comment
  else if rule = "literal_string" then some .string
  else none

def trim (offset : Int) (recorder : Recorder) : Recorder :=
  { recorder with
    notEquals := recorder.notEquals.trim offset
    reassignments := recorder.reassignments.trim offset
    shortIfs := recorder.shortIfs.trim offset
    lexemes := recorder.lexemes.trim offset }

/-- The observer that records the occurrences and lexemes of a source. -/
def observer (source : Source) : Observer Recorder where
  onMatch rule :=
    match OccurrenceKind.ofName? rule with
    | some kind => some (addOccurrence source kind)
    | none => (lexemeKind? rule).map addLexeme
  onReturn offset := trim offset

/-- The recorded occurrences of some kinds by offset; of all kinds when none is
given.  A kind given twice counts twice. -/
def occurrences (recorder : Recorder) (kinds : List OccurrenceKind) : List Occurrence :=
  let selected := if kinds.isEmpty then OccurrenceKind.all else kinds
  Occurrence.sort (selected.flatMap fun kind => (recorder.log kind).toList)

def counts (recorder : Recorder) : List (OccurrenceKind × Nat) :=
  OccurrenceKind.all.map fun kind => (kind, (recorder.log kind).size)

/-- One message for every occurrence ever recorded. -/
def candidateJournal (recorder : Recorder) : Journal :=
  recorder.candidates.reverse.map fun found =>
    ⟨.recorder, .debug, "candidate " ++ found.label⟩

def confirmation (found : Occurrence) : Entry :=
  ⟨.recorder, .info,
    found.kind.name ++ " " ++ toString found.line ++ ":" ++ toString found.column ++ " offset " ++
      toString found.offset ++ ": " ++ String.ofList found.text⟩

/-- One message for every occurrence that is still recorded. -/
def report (recorder : Recorder) : Journal :=
  (recorder.occurrences []).map confirmation

@[simp]
theorem log_updateLog_self (recorder : Recorder) (kind : OccurrenceKind)
    (change : OffsetLog Occurrence → OffsetLog Occurrence) :
    (recorder.updateLog kind change).log kind = change (recorder.log kind) := by
  cases kind <;> rfl

theorem log_updateLog_of_ne (recorder : Recorder) {kind other : OccurrenceKind}
    (change : OffsetLog Occurrence → OffsetLog Occurrence) (hne : other ≠ kind) :
    (recorder.updateLog kind change).log other = recorder.log other := by
  cases kind <;> cases other <;> first | rfl | exact absurd rfl hne

@[simp]
theorem log_trim (recorder : Recorder) (offset : Int) (kind : OccurrenceKind) :
    (recorder.trim offset).log kind = (recorder.log kind).trim offset := by
  cases kind <;> rfl

end Recorder

def Parser.record (p : Parser) (source : Source) : Except Failure Parsed × Recorder :=
  let (result, st) := p.parse (Recorder.observer source) .empty source
  (result, st.observed)

end CartLua
