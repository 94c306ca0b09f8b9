import CartLua.Fix
import CartLua.Proofs.Occurrence.RecordsFit

/-!
# How a fix ends

What is recorded of an accepted text can always be desugared, so no fix is abandoned: it
ends with a code, or with the one error of a text that is not accepted.

The code need not be plain Lua.  A compound assignment puts its value into one bracket;
a list of values cannot stand there, and a bracket after it is read as part of the value.
-/

namespace CartLua

open Dialect

namespace Dialect

/-- A text that is not accepted has an error. -/
theorem parse_of_record_eq_error {dialect : Dialect} {limit : Int} {source : Source}
    {failure : Failure} (h : ((dialect.parser limit).record source).1 = .error failure) :
    ∃ e, failure = .parse e := by
  have hfollows := follows_record dialect limit source
  rw [record_eq] at h
  rcases houtcome : Matching.run (dialect.grammar.recording source) (dialect.parser limit).depth
    (.rule rootName) (State.initial .empty) with ⟨verdict, last⟩
  rw [houtcome] at h hfollows
  cases verdict with
  | matched => cases h
  | failed =>
      cases h
      exact ⟨_, rfl⟩
  | stopped stop =>
      cases h
      rcases hfollows with rfl | ⟨⟨fault, rfl⟩, -⟩
      · exact ⟨_, rfl⟩
      · exact ⟨_, rfl⟩

/-- No rule of plain Lua is one of an extension. -/
theorem plain_rules :
    (rules canonical).all (fun rule => (OccurrenceKind.ofName? rule.name).isNone) = true := by
  decide

end Dialect

/-- A log takes nothing from captures of other rules. -/
theorem Recorder.log_seeAll_eq (source : Source) (recorder : Recorder) {cs : List Capture}
    (kind : OccurrenceKind) (hcs : ∀ c ∈ cs, c.rule ≠ kind.name) :
    (recorder.seeAll source cs).log kind = recorder.log kind := by
  induction cs generalizing recorder with
  | nil => rfl
  | cons c cs ih =>
      calc ((recorder.see source c).seeAll source cs).log kind
          = (recorder.see source c).log kind :=
            ih (recorder.see source c) fun d hd => hcs d (List.mem_cons_of_mem c hd)
        _ = recorder.log kind := by
            rw [log_see, if_neg (hcs c List.mem_cons_self)]

namespace Dialect

/-- Nothing is recorded of plain Lua. -/
theorem occurrences_of_canonical {limit : Int} {source : Source} {parsed : Parsed}
    (h : ((canonical.parser limit).record source).1 = .ok parsed) (kinds : List OccurrenceKind) :
    ((canonical.parser limit).record source).2.occurrences kinds = [] := by
  obtain ⟨tree, htree, hagrees⟩ := derives_of_record h
  have hlog : ∀ kind, (((canonical.parser limit).record source).2.log kind).toList = [] := by
    intro kind
    have hnone : ∀ c ∈ Walk.initial.captures tree, c.rule ≠ kind.name := by
      intro c hc hname
      rw [captures_eq] at hc
      obtain ⟨n, hn, _, _, -, hshows⟩ :=
        Walk.node_of_mem_capturesOfAll anchored_initial [tree] c hc
      have hplain := List.all_eq_true.mp plain_rules n.1 (mem_rules_of_mem_nodes htree.toMatch hn).1
      rw [← hshows.rule_eq, hname, OccurrenceKind.ofName?_name] at hplain
      cases hplain
    rw [hagrees.log kind, Recorder.log_seeAll_eq source _ kind hnone]
    cases kind <;> rfl
  rw [Recorder.occurrences, List.flatMap_eq_nil_iff.mpr fun kind _ => hlog kind]
  rfl

/-- What is recorded of an accepted text fits it and is apart or nested. -/
theorem fits_of_record {limit : Int} {source : Source} {parsed : Parsed}
    (h : ((pico8.parser limit).record source).1 = .ok parsed) {kinds : List OccurrenceKind}
    (hkinds : kinds.Nodup) :
    (∀ o ∈ ((pico8.parser limit).record source).2.occurrences kinds, o.Fits source) ∧
      Occurrence.Laminar (((pico8.parser limit).record source).2.occurrences kinds) := by
  obtain ⟨tree, htree, hagrees⟩ := derives_of_record h
  have hconfirms := confirms_of_agrees htree.toMatch hagrees
  constructor
  · intro o ho
    exact fits_of_mem_occurrences htree.toMatch hconfirms ho
  · exact laminar_occurrences htree.toMatch hconfirms hkinds

/-- What is recorded of an accepted text can be desugared. -/
theorem plan_of_record {dialect : Dialect} {limit : Int} {source : Source} {parsed : Parsed}
    (h : ((dialect.parser limit).record source).1 = .ok parsed) {kinds : List OccurrenceKind}
    (hkinds : kinds.Nodup) : ∃ edits,
      Desugar.plan source (((dialect.parser limit).record source).2.occurrences kinds) =
        .ok edits := by
  cases dialect with
  | canonical =>
      rw [occurrences_of_canonical h]
      exact ⟨[], rfl⟩
  | pico8 =>
      obtain ⟨hfits, hlaminar⟩ := fits_of_record h hkinds
      exact Desugar.plan_eq_ok hfits hlaminar

end Dialect

/-- A source is desugared or has an error. -/
theorem Fix.outcome_parsedAndDesugared (config : Config) (source : Source) :
    (∃ code occurrences warnings,
        (parsedAndDesugared config source).1 = .fixed code occurrences warnings) ∨
      ∃ error, (parsedAndDesugared config source).1 = .rejected error := by
  rw [parsedAndDesugared]
  rcases hrecord : (config.dialect.parser config.nestingLimit).record source with
    ⟨result, recorder⟩
  cases result with
  | ok parsed =>
      obtain ⟨edits, hedits⟩ := plan_of_record (congrArg Prod.fst hrecord)
        (by decide : [OccurrenceKind.notEqual, .reassignment].Nodup)
      rw [hrecord] at hedits
      apply Or.inl
      simp only [desugarRecorded, hedits]
      exact ⟨_, _, _, rfl⟩
  | error failure =>
      obtain ⟨e, rfl⟩ := parse_of_record_eq_error (congrArg Prod.fst hrecord)
      exact .inr ⟨e, rfl⟩

/-- There is fixed code unless the text has a parse error. -/
theorem fixCode_eq (config : Config) (code : List Char) :
    (∃ desugared, fixCode config code = .ok desugared) ∨
      ∃ error, fixCode config code = .error (.rejected error) := by
  rcases Fix.outcome_parsedAndDesugared config (fix config code).1.source with
    ⟨desugared, occurrences, warnings, hfixed⟩ | ⟨error, hrejected⟩
  · exact .inl ⟨desugared, congrArg FixOutcome.code hfixed⟩
  · exact .inr ⟨error, congrArg FixOutcome.code hrejected⟩

/-- What is recorded of an accepted text stands for what the text has there, is apart or
nested, and has a plan; so a fix ends with a code or with one error.  Texts are sequences of
Unicode scalar values, and the limit of nesting is the only bound on what the matcher follows. -/
theorem desugaring_succeeds :
    (∀ {limit : Int} {source : Source} {parsed : Parsed},
      ((pico8.parser limit).record source).1 = .ok parsed →
        (∀ o ∈ ((pico8.parser limit).record source).2.occurrences [], o.Fits source) ∧
        Occurrence.Laminar (((pico8.parser limit).record source).2.occurrences []) ∧
        ∀ kinds : List OccurrenceKind, kinds.Nodup → ∃ edits,
          Desugar.plan source (((pico8.parser limit).record source).2.occurrences kinds) =
            .ok edits) ∧
    ∀ (config : Config) (code : List Char),
      (∃ desugared occurrences warnings,
          (fix config code).1.outcome = .fixed desugared occurrences warnings) ∨
        ∃ error, (fix config code).1.outcome = .rejected error := by
  constructor
  · intro limit source parsed hparsed
    obtain ⟨hfits, hlaminar⟩ := fits_of_record hparsed List.nodup_nil
    exact ⟨hfits, hlaminar, fun kinds hkinds => plan_of_record hparsed hkinds⟩
  · intro config code
    exact Fix.outcome_parsedAndDesugared config (fix config code).1.source

/-- A text with a comparison in a compound assignment has a plan for what is recorded of it. -/
theorem desugaring_succeeds_reassignment :
    ∃ edits, Desugar.plan (.ofString "a+=b!=c" "cart")
      (((pico8.parser 0).record (.ofString "a+=b!=c" "cart")).2.occurrences []) = .ok edits := by
  obtain ⟨parsed, hparsed⟩ := record_reassignment
  exact (desugaring_succeeds.1 hparsed).2.2 [] List.nodup_nil

/-- Whether what a text is desugared to is accepted as plain Lua. -/
def Source.PlainOnceDesugared (limit : Int) (source : Source) : Prop :=
  ∀ edits,
    Desugar.plan source (((pico8.parser limit).record source).2.occurrences []) = .ok edits →
      ∃ parsed, ((canonical.parser limit).record
        (source.replaced (Edit.applyAll source.text edits))).1 = .ok parsed

/-- Whether the value of a compound assignment is one expression, after blanks. -/
def Occurrence.HasOneValue (limit : Int) (source : Source) (o : Occurrence) : Prop :=
  ∃ operator, o.operator = some operator ∧
    ((pico8.parser limit).isMatch "expression" (source.replaced
      ((source.piece (operator + 2) o.stop).dropWhile Text.isBlank))).1.toOption = some true

/-- A list of values ends up in one bracket, which is not plain Lua. -/
theorem not_plainOnceDesugared_list :
    ¬∀ {limit : Int} {source : Source} {parsed : Parsed},
      ((pico8.parser limit).record source).1 = .ok parsed →
        ((pico8.parser limit).record source).2.occurrences [.shortIf] = [] →
          source.PlainOnceDesugared limit := by
  intro hplain
  obtain ⟨⟨parsed, hparsed⟩, hshortIf, hrecorded⟩ :
      (∃ parsed, ((pico8.parser 0).record (.ofString "a += b, c" "cart")).1 = .ok parsed) ∧
        ((pico8.parser 0).record (.ofString "a += b, c" "cart")).2.occurrences [.shortIf] = [] ∧
        ((pico8.parser 0).record (.ofString "a += b, c" "cart")).2.occurrences [] =
          [⟨.reassignment, 0, 1, 1, 9, "a += b, c".toList, some 2, []⟩] := by
    rw [exists_record_eq_ok_iff, recorder_record, recording_eq]
    decide +kernel
  have hplan : Desugar.plan (.ofString "a += b, c" "cart")
      (((pico8.parser 0).record (.ofString "a += b, c" "cart")).2.occurrences []) =
        .ok [⟨0, 9, "a =a +( b, c)".toList⟩] := by
    rw [hrecorded]
    rfl
  have hcanonical := hplain hparsed hshortIf _ hplan
  rw [exists_record_eq_ok_iff, recording_eq] at hcanonical
  revert hcanonical
  decide +kernel

/-- A bracket that begins the next statement is read as a call of the bracket before it. -/
theorem not_plainOnceDesugared_bracket :
    ¬∀ {limit : Int} {source : Source} {parsed : Parsed},
      ((pico8.parser limit).record source).1 = .ok parsed →
        ((pico8.parser limit).record source).2.occurrences [.shortIf] = [] →
          (∀ o ∈ ((pico8.parser limit).record source).2.occurrences [.reassignment],
            o.HasOneValue limit source) → source.PlainOnceDesugared limit := by
  intro hplain
  obtain ⟨⟨parsed, hparsed⟩, hshortIf, hassigned, hrecorded⟩ :
      (∃ parsed,
        ((pico8.parser 0).record (.ofString "a += 1 (f).x = 2" "cart")).1 = .ok parsed) ∧
        ((pico8.parser 0).record
          (.ofString "a += 1 (f).x = 2" "cart")).2.occurrences [.shortIf] = [] ∧
        ((pico8.parser 0).record
          (.ofString "a += 1 (f).x = 2" "cart")).2.occurrences [.reassignment] =
          [⟨.reassignment, 0, 1, 1, 6, "a += 1".toList, some 2, []⟩] ∧
        ((pico8.parser 0).record (.ofString "a += 1 (f).x = 2" "cart")).2.occurrences [] =
          [⟨.reassignment, 0, 1, 1, 6, "a += 1".toList, some 2, []⟩] := by
    rw [exists_record_eq_ok_iff, recorder_record, recording_eq]
    decide +kernel
  have hvalue : ((pico8.parser 0).isMatch "expression"
      (.ofString "1" "cart")).1.toOption = some true := by
    rw [Parser.isMatch, Parser.prefixLength, Parser.run, parser, rule?_eq, isLinked_eq]
    decide +kernel
  have honeValue : ∀ o ∈ ((pico8.parser 0).record
      (.ofString "a += 1 (f).x = 2" "cart")).2.occurrences [.reassignment],
      o.HasOneValue 0 (.ofString "a += 1 (f).x = 2" "cart") := by
    intro o ho
    rw [hassigned, List.mem_singleton] at ho
    rw [ho]
    exact ⟨2, rfl, hvalue⟩
  have hplan : Desugar.plan (.ofString "a += 1 (f).x = 2" "cart")
      (((pico8.parser 0).record (.ofString "a += 1 (f).x = 2" "cart")).2.occurrences []) =
        .ok [⟨0, 6, "a =a +( 1)".toList⟩] := by
    rw [hrecorded]
    rfl
  have hcanonical := hplain hparsed hshortIf honeValue _ hplan
  rw [exists_record_eq_ok_iff, recording_eq] at hcanonical
  revert hcanonical
  decide +kernel
end CartLua
