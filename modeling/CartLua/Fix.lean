import CartLua.Config
import CartLua.Desugar.Plan
import CartLua.Dialect.Grammar
import CartLua.KnownFix
import CartLua.Occurrence.Recorder

/-!
# Fixing a cart

The code of a cart is patched with the known fixes, parsed with its extensions
recorded, and desugared to plain Lua.
-/

namespace CartLua

/-- How a fix ends. -/
inductive FixOutcome
  | fixed (code : List Char) (occurrences : List Occurrence) (warnings : List ShortIfWarning)
  | rejected (error : ParseError)
  /-- What the parse recorded does not fit the text. -/
  | abandoned (failure : PlanFailure)
  /-- The grammar has no root, or the match goes on for ever. -/
  | unanswered (failure : Failure)

structure FixResult where
  /-- The source after the known fixes. -/
  source : Source
  appliedFixes : List String
  outcome : FixOutcome

namespace Fix

def warnings (source : Source) (occurrences : List Occurrence) : List ShortIfWarning :=
  (occurrences.filter fun o => o.kind == .shortIf).map fun o =>
    ⟨source.location o.offset, o.text⟩

def countsText (recorder : Recorder) : String :=
  "\x7b" ++ ", ".intercalate (recorder.counts.map fun (kind, count) =>
    "'" ++ kind.name ++ "': " ++ toString count) ++ "\x7d"

def desugarRecorded (source : Source) (recorder : Recorder) : FixOutcome × Journal :=
  let occurrences := recorder.occurrences []
  let warnings := warnings source occurrences
  let before : Journal :=
    recorder.report ++ warnings.map fun w => ⟨.fixer, .warning, w.diagnostic.message⟩
  match Desugar.plan source (recorder.occurrences [.notEqual, .reassignment]) with
  | .ok edits =>
      (.fixed (Edit.applyAll source.text edits) occurrences warnings,
        before ++
          [⟨.desugaring, .info, Desugar.applyingEntry edits⟩,
            ⟨.fixer, .info, "Fixed " ++ source.filename ++ ": " ++ countsText recorder⟩])
  | .error failure => (.abandoned failure, before)

def parsedAndDesugared (config : Config) (source : Source) : FixOutcome × Journal :=
  let parser := config.dialect.parser config.nestingLimit
  let (result, recorder) := parser.record source
  let before := parser.announcement source :: recorder.candidateJournal
  match result with
  | .ok _ =>
      let (outcome, journal) := desugarRecorded source recorder
      (outcome, before ++ journal)
  | .error (.parse e) =>
      (.rejected e,
        before ++ [⟨.fixer, .error, "Failed to parse " ++ source.filename ++ ": " ++ e.message⟩])
  | .error failure => (.unanswered failure, before)

end Fix

/-- Fix the code of a cart.  The journal of the work comes with the result. -/
def fix (config : Config) (code : List Char) : FixResult × Journal :=
  let source := Source.ofChars code config.filename
  let (source, applied) :=
    if config.knownFixes then KnownFix.applyAll KnownFix.builtIn source else (source, [])
  let (outcome, journal) := Fix.parsedAndDesugared config source
  ({ source := source, appliedFixes := applied, outcome := outcome },
    KnownFix.journal applied ++ journal)

/-- Why there is no fixed code. -/
inductive FixFailure
  | rejected (error : ParseError)
  | abandoned (failure : PlanFailure)
  | unanswered (failure : Failure)

/-- The outcome without what else was found, as a caller wants it who needs the code only. -/
def FixOutcome.code : FixOutcome → Except FixFailure (List Char)
  | fixed code _ _ => .ok code
  | rejected error => .error (.rejected error)
  | abandoned failure => .error (.abandoned failure)
  | unanswered failure => .error (.unanswered failure)

/-- Fix the code of a cart and hand on the code, or the reason why there is none. -/
def fixCode (config : Config) (code : List Char) : Except FixFailure (List Char) :=
  (fix config code).1.outcome.code

end CartLua
