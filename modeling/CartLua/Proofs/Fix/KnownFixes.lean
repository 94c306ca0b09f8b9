import CartLua.Proofs.Desugar.LinePreservation
import CartLua.Proofs.Dialect.Conservative

/-!
# Where known fixes are harmless

A known fix is a substitution in the raw text, made before anyone knows what is code and
what is a comment or a string.  It leaves a text alone just when its pattern stands nowhere
in it, and it is exactly then that plain Lua comes back as it was: where the pattern stands,
be it in a comment, the patched text has one line more, and rewriting does not take it back.
-/

namespace CartLua

/-- There is no first place of a pattern just when it stands nowhere. -/
theorem splitAtFirst?_eq_none_iff {pattern cs : List Char} :
    splitAtFirst? pattern cs = none ↔ ¬pattern <:+: cs := by
  induction cs with
  | nil => simp [splitAtFirst?]
  | cons c cs ih =>
      rw [splitAtFirst?, List.infix_cons_iff, ← List.isPrefixOf_iff_prefix]
      by_cases hhere : pattern.isPrefixOf (c :: cs) = true
      · simp [hhere]
      · simp [hhere, ih]

namespace KnownFix

theorem applied?_eq_none_iff {fix : KnownFix} {text : List Char} :
    fix.applied? text = none ↔ ¬fix.pattern <:+: text := by
  rw [applied?, Option.map_eq_none_iff, splitAtFirst?_eq_none_iff]

/-- Fixes change nothing just when none of their patterns stands in the text. -/
theorem applyInOrder_names_eq_nil_iff {fixes : List KnownFix} {text : List Char} :
    (applyInOrder fixes text).2 = [] ↔ ∀ fix ∈ fixes, ¬fix.pattern <:+: text := by
  induction fixes with
  | nil => simp [applyInOrder]
  | cons fix fixes ih =>
      rw [applyInOrder, List.forall_mem_cons, ← applied?_eq_none_iff]
      cases fix.applied? text with
      | none => simpa using ih
      | some fixed => simp

/-- A source in which no pattern stands is not touched. -/
theorem applyAll_eq_self_iff {fixes : List KnownFix} {source : Source} :
    applyAll fixes source = (source, []) ↔ ∀ fix ∈ fixes, ¬fix.pattern <:+: source.chars := by
  rw [← applyInOrder_names_eq_nil_iff, applyAll]
  rcases applyInOrder fixes source.chars with ⟨text, names⟩
  cases names <;> simp

/-- A source of which some pattern stands in the text is patched. -/
theorem applyAll_eq {fixes : List KnownFix} {source : Source} {text : List Char} {name : String}
    {names : List String} (happlied : applyInOrder fixes source.chars = (text, name :: names)) :
    applyAll fixes source = (source.replaced text, name :: names) := by
  rw [applyAll, happlied]

/-- The patched text of a source in which the pattern of the built-in fix stands. -/
theorem applyAll_builtIn {source : Source} (hstands : update60.pattern <:+: source.chars) :
    ∃ before after, source.chars = before ++ (update60.pattern ++ after) ∧
      applyAll builtIn source =
        (source.replaced (before ++ update60.replacement ++ after ++ update60.suffix),
          [update60.name]) := by
  rcases hsplit : splitAtFirst? update60.pattern source.chars with _ | ⟨before, after⟩
  · exact absurd hstands (splitAtFirst?_eq_none_iff.mp hsplit)
  · refine ⟨before, after, eq_of_splitAtFirst? hsplit, ?_⟩
    apply applyAll_eq
    rw [builtIn, applyInOrder, applied?, hsplit]
    rfl

/-- The patched text has one line more. -/
theorem count_applyAll_builtIn {source : Source} (hstands : update60.pattern <:+: source.chars) :
    (applyAll builtIn source).1.chars.count '\n' = source.chars.count '\n' + 1 := by
  obtain ⟨before, after, hchars, hpatched⟩ := applyAll_builtIn hstands
  have hpattern : update60.pattern.count '\n' = 0 := by decide
  have hreplacement : update60.replacement.count '\n' = 1 := by decide
  have hsuffix : update60.suffix.count '\n' = 0 := by decide
  rw [hpatched, Source.replaced, Source.chars_ofChars, hchars]
  simp only [List.count_append, hpattern, hreplacement, hsuffix]
  omega

end KnownFix

/-- Whatever is recorded of an accepted source, rewriting it keeps the number of lines. -/
theorem Dialect.count_of_plan {dialect : Dialect} {limit : Int} {source : Source} {parsed : Parsed}
    (hparsed : ((dialect.parser limit).record source).1 = .ok parsed)
    {kinds : List OccurrenceKind} (hkinds : kinds.Nodup) {edits : List Edit}
    (hplan : Desugar.plan source (((dialect.parser limit).record source).2.occurrences kinds) =
      .ok edits) :
    (Edit.applyAll source.text edits).count '\n' = source.chars.count '\n' := by
  cases dialect with
  | canonical =>
      rw [occurrences_of_canonical hparsed] at hplan
      cases hplan
      rw [Edit.applyAll_nil]
      rfl
  | pico8 =>
      have hready := ready_of_record hparsed hkinds
      obtain ⟨-, -, hedits⟩ := Except.bind_eq_ok hplan
      have hrange : ∀ o ∈ Occurrence.sort ((((pico8.parser limit).record source).2.occurrences
          kinds).filter Desugar.isSugar), 0 ≤ o.offset ∧ o.stop ≤ (source.text.size : Int) := by
        intro o ho
        have hplaced := (hready.fits o ho).2.placed
        exact ⟨hplaced.offset_nonneg, hplaced.stop_le⟩
      have hpreserves := Desugar.preserves_edits _ (Nat.le_of_eq (length_sortBy _ _)) hready hedits
        (Int.le_refl 0) (Int.natCast_nonneg _) hrange
      exact hpreserves.keepsLines.lineFeeds

namespace Fix

variable {config : Config} {source : Source} {code : List Char} {occurrences : List Occurrence}
  {warnings : List ShortIfWarning}

/-- A fixed code is what the plan of an accepted source makes of it. -/
theorem exists_plan_of_fixed
    (hfixed : (parsedAndDesugared config source).1 = .fixed code occurrences warnings) :
    ∃ parsed edits,
      ((config.dialect.parser config.nestingLimit).record source).1 = .ok parsed ∧
      Desugar.plan source (((config.dialect.parser config.nestingLimit).record
        source).2.occurrences [.notEqual, .reassignment]) = .ok edits ∧
      code = Edit.applyAll source.text edits := by
  rw [parsedAndDesugared] at hfixed
  rcases hrecord : (config.dialect.parser config.nestingLimit).record source with
    ⟨result, recorder⟩
  rw [hrecord] at hfixed
  cases result with
  | ok parsed =>
      simp only [desugarRecorded] at hfixed
      rcases hplan : Desugar.plan source (recorder.occurrences [.notEqual, .reassignment]) with
        failure | edits
      all_goals
        rw [hplan] at hfixed
        cases hfixed
      exact ⟨parsed, edits, rfl, rfl, rfl⟩
  | error failure => cases failure <;> cases hfixed

/-- The fixed code has as many lines as the source that was parsed. -/
theorem count_of_fixed
    (hfixed : (parsedAndDesugared config source).1 = .fixed code occurrences warnings) :
    code.count '\n' = source.chars.count '\n' := by
  obtain ⟨parsed, edits, hparsed, hplan, rfl⟩ := exists_plan_of_fixed hfixed
  exact Dialect.count_of_plan hparsed (by decide) hplan

/-- With known fixes a code is parsed after the built-in one. -/
theorem source_fix (hfixes : config.knownFixes = true) :
    (fix config code).1.source =
      (KnownFix.applyAll KnownFix.builtIn (.ofChars code config.filename)).1 := by
  simp only [fix, hfixes, if_true]

theorem outcome_fix (config : Config) (code : List Char) :
    (fix config code).1.outcome =
      (parsedAndDesugared config (fix config code).1.source).1 := rfl

/-- A code without the pattern is parsed as it is. -/
theorem source_fix_of_absent (hfixes : config.knownFixes = true)
    (habsent : ¬KnownFix.update60.pattern <:+: code) :
    (fix config code).1.source = .ofChars code config.filename := by
  have hself : KnownFix.applyAll KnownFix.builtIn (.ofChars code config.filename) =
      (.ofChars code config.filename, []) := by
    rw [KnownFix.applyAll_eq_self_iff, Source.chars_ofChars, KnownFix.builtIn,
      List.forall_mem_singleton]
    exact habsent
  rw [source_fix hfixes, hself]

/-- A code with the pattern is parsed with one line more. -/
theorem count_source_fix (hfixes : config.knownFixes = true)
    (hstands : KnownFix.update60.pattern <:+: code) :
    (fix config code).1.source.chars.count '\n' = code.count '\n' + 1 := by
  rw [source_fix hfixes, KnownFix.count_applyAll_builtIn, Source.chars_ofChars]
  rwa [Source.chars_ofChars]

end Fix

/-- Let known fixes be applied.  A code is parsed as it is just when the pattern of the
built-in fix stands nowhere in it; and a code that is plain Lua comes back unchanged just when
the pattern stands nowhere in it. -/
theorem known_fixes_spare_where_absent (config : Config) (hfixes : config.knownFixes = true)
    (code : List Char) :
    ((fix config code).1.source = .ofChars code config.filename ↔
      ¬KnownFix.update60.pattern <:+: code) ∧
    ((Dialect.canonical.parser config.nestingLimit).Accepts (.ofChars code config.filename) →
      ((∃ occurrences warnings, (fix config code).1.outcome = .fixed code occurrences warnings) ↔
        ¬KnownFix.update60.pattern <:+: code)) := by
  refine ⟨⟨fun hsame hstands => ?_, Fix.source_fix_of_absent hfixes⟩, fun haccepts =>
    ⟨?_, fun habsent => ⟨[], [], ?_⟩⟩⟩
  · have hcount := Fix.count_source_fix hfixes hstands
    rw [hsame, Source.chars_ofChars] at hcount
    omega
  · rintro ⟨occurrences, warnings, hfixed⟩ hstands
    have hcount := Fix.count_source_fix hfixes hstands
    rw [Fix.outcome_fix] at hfixed
    have hkept := Fix.count_of_fixed hfixed
    omega
  · obtain ⟨⟨parsed, hparsed⟩, hnone⟩ :=
      Dialect.record_of_accepts_canonical config.dialect haccepts
    have hfixed := Fix.parsedAndDesugared_of_plain hparsed hnone
    rw [Source.chars_ofChars, ← Fix.source_fix_of_absent hfixes habsent] at hfixed
    rw [Fix.outcome_fix, hfixed]

/-- An assignment stays as it is. -/
theorem known_fixes_spare_assignment :
    (Dialect.canonical.parser 8000).Accepts (.ofString "a=b" "<cart>") ∧
      ∃ occurrences warnings,
        (fix .usual "a=b".toList).1.outcome = .fixed "a=b".toList occurrences warnings := by
  have haccepts : (Dialect.canonical.parser 8000).Accepts (.ofString "a=b" "<cart>") := by
    rw [Dialect.accepts_iff_record, Dialect.exists_record_eq_ok_iff, Dialect.recording_eq]
    decide +kernel
  have habsent : ¬KnownFix.update60.pattern <:+: "a=b".toList := by
    rw [← splitAtFirst?_eq_none_iff]
    decide
  exact ⟨haccepts, ((known_fixes_spare_where_absent .usual rfl "a=b".toList).2 haccepts).mpr
    habsent⟩

/-- A comment that names the pattern is plain Lua, and is patched into a text that is
rejected; so is the short `if` of which the pattern is the beginning. -/
theorem known_fix_breaks_comment :
    (Dialect.canonical.parser 8000).Accepts
        (.ofString "-- if(_update60)_update=function()" "<cart>") ∧
      (¬∃ code occurrences warnings,
        (fix .usual "-- if(_update60)_update=function()".toList).1.outcome =
          .fixed code occurrences warnings) ∧
      (Dialect.pico8.parser 8000).Accepts
        (.ofString "if(_update60)_update=function()" "<cart>") ∧
      ¬(Dialect.pico8.parser 8000).Accepts
        (KnownFix.applyAll KnownFix.builtIn
          (.ofString "if(_update60)_update=function()" "<cart>")).1 := by
  have hcomment : (Dialect.canonical.parser 8000).Accepts
      (.ofString "-- if(_update60)_update=function()" "<cart>") := by
    rw [Dialect.accepts_iff_record, Dialect.exists_record_eq_ok_iff, Dialect.recording_eq]
    decide +kernel
  have hrejected : ¬∃ parsed, ((Dialect.pico8.parser 8000).record
      (.ofString "-- \nif(_update60)then _update=function() end" "<cart>")).1 = .ok parsed := by
    rw [Dialect.exists_record_eq_ok_iff, Dialect.recording_eq]
    decide +kernel
  have hshort : (Dialect.pico8.parser 8000).Accepts
      (.ofString "if(_update60)_update=function()" "<cart>") := by
    rw [Dialect.accepts_iff_record, Dialect.exists_record_eq_ok_iff, Dialect.recording_eq]
    decide +kernel
  have hclosed : ¬(Dialect.pico8.parser 8000).Accepts
      (.ofString "\nif(_update60)then _update=function() end" "<cart>") := by
    rw [Dialect.accepts_iff_record, Dialect.exists_record_eq_ok_iff, Dialect.recording_eq]
    decide +kernel
  have hpatched : KnownFix.applyInOrder KnownFix.builtIn
      "-- if(_update60)_update=function()".toList =
        ("-- \nif(_update60)then _update=function() end".toList, ["update60_short_if"]) := by
    decide
  have hpatched' : KnownFix.applyInOrder KnownFix.builtIn
      "if(_update60)_update=function()".toList =
        ("\nif(_update60)then _update=function() end".toList, ["update60_short_if"]) := by
    decide
  refine ⟨hcomment, ?_, hshort, ?_⟩
  · rintro ⟨code, occurrences, warnings, hfixed⟩
    rw [Fix.outcome_fix, Fix.source_fix rfl] at hfixed
    obtain ⟨parsed, -, hparsed, -⟩ := Fix.exists_plan_of_fixed hfixed
    rw [KnownFix.applyAll_eq hpatched] at hparsed
    exact hrejected ⟨parsed, hparsed⟩
  · rw [KnownFix.applyAll_eq hpatched']
    exact hclosed

end CartLua
