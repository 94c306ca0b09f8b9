import CartLua.Proofs.Fix.KnownFixes
import CartLua.Proofs.Fix.ShortIfEnd

/-!
# Closing what a known fix opens

The built-in fix writes a `then` where a short `if` was, and puts the keyword `end` that this needs
at the end of the text.  It puts it on the last line, behind a blank.  A text that would be accepted
with the keyword on a line of its own is then accepted as well, whatever its last line holds, be it
code, a string, a name or a short `if`, but for one thing: if a comment runs on to the end of the
line, the keyword is part of the comment, and nothing is closed.
-/

namespace CartLua

open Dialect Pattern

namespace Dialect

variable {n depth : Nat}

/-- A statement ends before the keyword, or takes the blank before it. -/
theorem overlooks_statement (h : OverlookedBelow depth) (hn : n ≤ depth) :
    Overlooks pico8.grammar (Tailed Anything) (Straying Anything) n (statement pico8).body := by
  have hchecked : ∀ items, allOverlookBreak overlooking items = true → ∀ item ∈ items,
      Overlooks pico8.grammar (Tailed Anything) (Straying Anything) (n - 1) item :=
    fun items hitems item hitem =>
      (h.overlooksAll items (by omega) hitems item hitem).mono (fun _ _ => id) fun _ _ => .tailed
  have hshort : shortIfStatement ∈ rules pico8 := by simp [rules, blockRules, extension]
  have hcall : Overlooks pico8.grammar (Tailed Anything) (Straying Anything) (n - 1)
      (.call "short_if_statement") := overlooks_call hshort (overlooks_shortIf h (by omega))
  apply Overlooks.choice
  refine List.forall_mem_append.mpr ⟨List.forall_mem_append.mpr ⟨?_, ?_⟩, ?_⟩
  · exact hchecked _ (by decide)
  · exact List.forall_mem_singleton.mpr hcall
  · exact hchecked _ (by decide)

/-- The rules overlook how the keyword is set off, within every depth. -/
theorem overlookedBelow (depth : Nat) : OverlookedBelow depth := by
  induction depth with
  | zero =>
      exact ⟨fun _ hn => absurd hn (Nat.not_lt_zero _), fun _ hn => absurd hn (Nat.not_lt_zero _)⟩
  | succ depth ih =>
      constructor
      · intro n hn name hname
        have hmem := (List.mem_filter.mp (List.contains_iff_mem.mp hname)).1
        obtain ⟨rule, hrule, rfl⟩ := List.mem_map.mp hmem
        exact .rule (rule?_grammar hrule) (ih.body (by omega) hrule hname)
      · intro n hn
        have hstatement : statement pico8 ∈ rules pico8 := by simp [rules, definitionRules]
        have hbody : Overlooks pico8.grammar (Tailed Anything) (Straying Anything) n
            (.rule (statement pico8).name) :=
          .rule (rule?_grammar hstatement) (overlooks_statement ih (by omega))
        exact hbody

/-- A first line that names an interpreter ends before the keyword, if any line does. -/
theorem overlooks_interpreter : Overlooks pico8.grammar (Tailed ('\n' ∈ ·)) (Tailed Anything) n
    (.call "interpreter") := by
  have hinterpreter : interpreter ∈ rules pico8 := by simp [rules, lexicalRules]
  have hmark : Overlooks pico8.grammar (Tailed ('\n' ∈ ·)) (Tailed ('\n' ∈ ·)) (n - 2 - 1)
      (.one "#") := by
    refine .oneOf (fun u hu => List.ne_nil_of_mem hu) fun c hc v hmem => ?_
    obtain rfl : c = '#' := by simpa using hc
    exact (List.mem_cons.mp hmem).resolve_left (by decide)
  exact overlooks_call hinterpreter
    (.seq_cons hmark fun _ => .seq_cons overlooks_restOfLine fun _ => .seq_nil fun _ _ => id)

theorem overlooks_program : Overlooks pico8.grammar (Tailed ('\n' ∈ ·)) (Tailed Anything) n
    program.body := by
  have hlist : Overlooks pico8.grammar (Tailed Anything) (Tailed Anything) (n - 1)
      (.must (statementList endOfInput)) := (overlookedBelow n).overlooks _ (by omega) (by decide)
  exact .seq_cons (.must (.opt overlooks_interpreter fun _ _ hst => hst.anything)) fun _ =>
    .seq_cons hlist fun _ => .seq_nil fun _ _ => id

/-- What is accepted with the keyword on a line of its own is accepted with it on the last line. -/
theorem accepts_endedBy {limit : Int} {filename : String} {u : List Char} (hu : Uncommented u)
    (hline : '\n' ∈ u)
    (haccepts : (pico8.parser limit).Accepts (.ofChars (endedBy '\n' u) filename)) :
    (pico8.parser limit).Accepts (.ofChars (endedBy ' ' u) filename) := by
  have hprogram : program ∈ rules pico8 := by simp [rules, definitionRules]
  obtain ⟨tree, htree⟩ := exists_parse_eq_ok_iff.mp haccepts
  have hoverlooks : Overlooks pico8.grammar (Tailed ('\n' ∈ ·)) (Tailed Anything)
      (pico8.parser limit).depth (.rule program.name) :=
    .rule (rule?_grammar hprogram) overlooks_program
  rw [Source.chars_ofChars] at htree
  obtain ⟨_, hother, halike⟩ := hoverlooks (.ended hu hline) htree
    Answer.matched_ne_broken
  cases halike with
  | matched _ =>
      obtain ⟨rfl, other, rfl⟩ := of_program hother.erase.toMatch
      exact exists_parse_eq_ok_iff.mpr ⟨other, by rwa [Source.chars_ofChars]⟩

end Dialect

/-- The first place of a pattern is where it stands and nowhere before. -/
theorem splitAtFirst?_eq_some {pattern before after : List Char}
    (hfirst : ∀ shorter, shorter ++ pattern <+: before ++ (pattern ++ after) →
      before.length ≤ shorter.length) :
    splitAtFirst? pattern (before ++ (pattern ++ after)) = some (before, after) := by
  induction before with
  | nil =>
      rw [List.nil_append]
      rcases hwhole : pattern ++ after with _ | ⟨c, cs⟩
      · obtain ⟨rfl, rfl⟩ := List.append_eq_nil_iff.mp hwhole
        rfl
      · have hstands : pattern.isPrefixOf (c :: cs) = true := by
          rw [← hwhole, List.isPrefixOf_iff_prefix]
          exact List.prefix_append _ _
        rw [splitAtFirst?, if_pos hstands, ← hwhole, List.drop_left]
  | cons c before ih =>
      have hnot : ¬pattern.isPrefixOf (c :: (before ++ (pattern ++ after))) = true := by
        rw [List.isPrefixOf_iff_prefix]
        intro hstands
        have hlength := hfirst [] hstands
        simp at hlength
      have hlater := ih fun shorter hshorter => by
        have hlength := hfirst (c :: shorter) (List.cons_prefix_cons.mpr ⟨rfl, hshorter⟩)
        simpa using hlength
      rw [List.cons_append, splitAtFirst?, if_neg hnot, hlater]
      rfl

/-- Let the pattern of the built-in fix stand in a code first after `before`, and let every two
dashes in the last line of the patched code open a long bracket, so that no comment runs on to its
end.  This asks more than it must: two dashes inside a string on the last line are no comment and
are left out all the same.  If the patched code is accepted with the keyword `end` on a line of its
own behind it, then the code that the fix makes is accepted, under every limit. -/
theorem known_fix_closes_uncommented (limit : Int) (filename : String)
    {code before after : List Char} (hcode : code = before ++ (KnownFix.update60.pattern ++ after))
    (hfirst : ∀ shorter, shorter ++ KnownFix.update60.pattern <+: code →
      before.length ≤ shorter.length)
    (huncommented : Uncommented (before ++ KnownFix.update60.replacement ++ after))
    (haccepts : (Dialect.pico8.parser limit).Accepts
      (.ofChars (before ++ KnownFix.update60.replacement ++ after ++ "\nend".toList) filename)) :
    ∃ fixed, KnownFix.update60.applied? code = some fixed ∧
      (Dialect.pico8.parser limit).Accepts (.ofChars fixed filename) := by
  subst hcode
  have hline : '\n' ∈ before ++ KnownFix.update60.replacement ++ after := by
    have hmem : '\n' ∈ KnownFix.update60.replacement := by decide
    exact List.mem_append_left _ (List.mem_append_right _ hmem)
  refine ⟨_, by rw [KnownFix.applied?, splitAtFirst?_eq_some hfirst]; rfl, ?_⟩
  exact Dialect.accepts_endedBy huncommented hline haccepts

/-- A function that is closed itself leaves the `if` to be closed. -/
theorem known_fix_closes_function :
    Uncommented "\nif(_update60)then _update=function()\nend".toList ∧
      ∃ fixed, KnownFix.update60.applied? "if(_update60)_update=function()\nend".toList =
        some fixed ∧ (Dialect.pico8.parser 8000).Accepts (.ofChars fixed "<cart>") := by
  have huncommented : Uncommented "\nif(_update60)then _update=function()\nend".toList :=
    uncommented_of_not_infix (splitAtFirst?_eq_none_iff.mp (by decide))
  have haccepts : (Dialect.pico8.parser 8000).Accepts
      (.ofChars ([] ++ KnownFix.update60.replacement ++ "\nend".toList ++ "\nend".toList)
        "<cart>") := by
    rw [Dialect.accepts_iff_record, Dialect.exists_record_eq_ok_iff, Dialect.recording_eq]
    decide +kernel
  exact ⟨huncommented, @known_fix_closes_uncommented 8000 "<cart>" _ [] "\nend".toList rfl
    (fun _ _ => Nat.zero_le _) huncommented haccepts⟩

/-- Where a comment ends the code, the keyword is part of the comment. -/
theorem known_fix_closes_comment_only :
    (Dialect.pico8.parser 8000).Accepts
        (.ofChars (KnownFix.update60.replacement ++ "\nend -- c\nend".toList) "<cart>") ∧
      KnownFix.update60.applied? "if(_update60)_update=function()\nend -- c".toList =
        some (KnownFix.update60.replacement ++ "\nend -- c end".toList) ∧
      ¬(Dialect.pico8.parser 8000).Accepts
        (.ofChars (KnownFix.update60.replacement ++ "\nend -- c end".toList) "<cart>") := by
  refine ⟨?_, by decide, ?_⟩
  all_goals
    rw [Dialect.accepts_iff_record, Dialect.exists_record_eq_ok_iff, Dialect.recording_eq]
    decide +kernel

end CartLua
