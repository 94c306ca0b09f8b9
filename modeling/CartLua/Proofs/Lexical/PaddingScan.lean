import CartLua.Proofs.Derivation.Verdicts
import CartLua.Proofs.Matching.StateRelations

/-!
# Skipping padding

Padding is described by a rule that repeats a choice between blanks, long comments and line
comments.  A reader would rather write a loop: skip one blank, or a comment to its end, as long
as there is one.  The two do the same to every text, a long bracket that is never closed
included, and the loop says in plain terms where padding ends.
-/

namespace CartLua

open Dialect Terminal

/-! ## The loop -/

namespace Text

/-- What follows the first place where a needle stands. -/
def afterFirst? (needle s : List Char) : Option (List Char) :=
  if needle <+: s then some (s.drop needle.length)
  else
    match s with
    | [] => none
    | _ :: t => afterFirst? needle t

variable {needle s rest : List Char}

theorem of_afterFirst?_eq_some (h : afterFirst? needle s = some rest) :
    ∃ before, s = before ++ needle ++ rest ∧
      ∀ shorter, shorter ++ needle <+: s → before.length ≤ shorter.length := by
  induction s with
  | nil =>
      rw [afterFirst?] at h
      split at h
      · rename_i hhere
        cases h
        obtain rfl := List.prefix_nil.mp hhere
        exact ⟨[], rfl, fun _ _ => Nat.zero_le _⟩
      · cases h
  | cons c t ih =>
      rw [afterFirst?] at h
      split at h
      · rename_i hhere
        cases h
        refine ⟨[], ?_, fun _ _ => Nat.zero_le _⟩
        rw [List.nil_append, ← List.prefix_iff_eq_append.mp hhere]
        simp
      · rename_i hhere
        obtain ⟨before, rfl, hfirst⟩ := ih h
        refine ⟨c :: before, by simp, fun shorter hshorter => ?_⟩
        cases shorter with
        | nil => exact absurd hshorter hhere
        | cons d shorter =>
            have hwithin := (List.cons_prefix_cons.mp hshorter).2
            exact Nat.succ_le_succ (hfirst shorter hwithin)

theorem of_afterFirst?_eq_none (h : afterFirst? needle s = none) : ¬needle <:+: s := by
  induction s with
  | nil =>
      rw [afterFirst?] at h
      split at h
      · cases h
      · rename_i hhere
        exact fun hinfix => hhere (List.infix_nil.mp hinfix ▸ List.prefix_rfl)
  | cons c t ih =>
      rw [afterFirst?] at h
      split at h
      · cases h
      · rename_i hhere
        exact fun hinfix => (List.infix_cons_iff.mp hinfix).elim hhere (ih h)

end Text

namespace Padding

/-- The level of the long bracket that a text begins with. -/
def openedLevel? (s : List Char) : Option Nat :=
  let level := ((s.drop 1).takeWhile (· == '=')).length
  if openingBracket level <+: s then some level else none

/-- What one skip does. -/
inductive Skip
  /-- It goes on to this rest of the text. -/
  | to (rest : List Char)
  /-- The bracket of this level that the text begins with is never closed. -/
  | unclosed (level : Nat) (text : List Char)
  /-- There is nothing to skip. -/
  | none
  deriving DecidableEq, Repr

/-- Skip a comment, from behind its dashes. -/
def skipComment (t : List Char) : Skip :=
  match openedLevel? t with
  | some level =>
      match Text.afterFirst? (closingBracket level) (t.drop (level + 2)) with
      | some rest => .to rest
      | none => .unclosed level t
  | none => .to ((t.dropWhile (· != '\n')).drop 1)

/-- Skip a blank. -/
def skipBlank : List Char → Skip
  | c :: t => if c ∈ spaces.toList then .to t else .none
  | [] => .none

/-- Skip one blank or one comment. -/
def skip (s : List Char) : Skip :=
  if ['-', '-'] <+: s then skipComment (s.drop 2) else skipBlank s

variable {level : Nat} {s rest : List Char}

theorem openedLevel?_eq_some_iff : openedLevel? s = some level ↔ openingBracket level <+: s := by
  rw [openedLevel?]
  constructor
  · intro h
    split at h
    · rename_i hopens
      cases h
      exact hopens
    · cases h
  · intro hopens
    have hlevel : ((s.drop 1).takeWhile (· == '=')).length = level := by
      obtain ⟨t, rfl⟩ := hopens
      rw [openingBracket_append, List.drop_succ_cons, List.drop_zero,
        List.takeWhile_append_of_pos (by simp), List.takeWhile_cons_of_neg (by decide)]
      simp
    simp only [hlevel, hopens, if_true]

theorem openedLevel?_eq_none_iff :
    openedLevel? s = none ↔ ∀ level, ¬openingBracket level <+: s := by
  simp only [Option.eq_none_iff_forall_ne_some, ne_eq, openedLevel?_eq_some_iff]

/-- The rest of a line is behind its line feed. -/
theorem line_eq (s : List Char) :
    ∃ line, '\n' ∉ line ∧ (s = line ++ '\n' :: (s.dropWhile (· != '\n')).drop 1 ∨
      s = line ∧ (s.dropWhile (· != '\n')).drop 1 = []) := by
  have hline : '\n' ∉ s.takeWhile (· != '\n') := fun hmem => by
    simpa using List.all_eq_true.mp List.all_takeWhile _ hmem
  refine ⟨s.takeWhile (· != '\n'), hline, ?_⟩
  cases hrest : s.dropWhile (· != '\n') with
  | nil =>
      refine .inr ⟨?_, rfl⟩
      have hs := List.takeWhile_append_dropWhile (p := (· != '\n')) (l := s)
      rw [hrest, List.append_nil] at hs
      exact hs.symm
  | cons c t =>
      have hfeed : c = '\n' := by
        have hfails := List.head?_dropWhile_not (· != '\n') s
        rw [hrest] at hfails
        simpa using hfails
      refine .inl ?_
      subst hfeed
      rw [List.drop_succ_cons, List.drop_zero, ← hrest, List.takeWhile_append_dropWhile]

/-- Behind two dashes there is a comment, unless a bracket is opened and never closed. -/
theorem skipComment_cases (t : List Char) :
    (∃ text rest, skipComment t = .to rest ∧ '-' :: '-' :: t = text ++ rest ∧ Comment text rest) ∨
      ∃ level u, skipComment t = .unclosed level t ∧ t = openingBracket level ++ u ∧
        ¬closingBracket level <:+: u := by
  rw [skipComment]
  cases hlevel : openedLevel? t with
  | none =>
      have hunopened := openedLevel?_eq_none_iff.mp hlevel
      obtain ⟨line, hline, ht | ⟨ht, hrest⟩⟩ := line_eq t
      · refine .inl ⟨'-' :: '-' :: (line ++ ['\n']), _, rfl, ?_, .line hline fun level h => ?_⟩
        · simpa using ht
        · exact hunopened level (ht ▸ h.trans (List.prefix_append _ _))
      · exact .inl ⟨'-' :: '-' :: line, _, rfl, by simp [← ht, hrest],
          hrest ▸ .last hline (ht ▸ hunopened)⟩
  | some level =>
      obtain ⟨u, rfl⟩ := openedLevel?_eq_some_iff.mp hlevel
      dsimp only
      rw [List.drop_left' (length_openingBracket level)]
      cases hclosing : Text.afterFirst? (closingBracket level) u with
      | none => exact .inr ⟨level, u, rfl, rfl, Text.of_afterFirst?_eq_none hclosing⟩
      | some rest =>
          obtain ⟨body, rfl, hfirst⟩ := Text.of_afterFirst?_eq_some hclosing
          have hcloses : ClosesFirst level body := closesFirst_of_length_le fun before hbefore =>
            hfirst before (hbefore.trans (List.prefix_append _ rest))
          refine .inl ⟨'-' :: '-' :: (openingBracket level ++ (body ++ closingBracket level)), rest,
            rfl, ?_, .long hcloses⟩
          simp

/-- Whatever can be skipped is a blank or a comment, and otherwise there is no such thing. -/
theorem skip_cases (s : List Char) :
    (∃ text rest, skip s = .to rest ∧ s = text ++ rest ∧ text ≠ [] ∧ Separator text rest) ∨
      (∃ level t, skip s = .unclosed level (openingBracket level ++ t) ∧
        s = '-' :: '-' :: (openingBracket level ++ t) ∧ ¬closingBracket level <:+: t) ∨
      skip s = .none ∧ ¬['-', '-'] <+: s ∧ StartsOutside spaces.toList s := by
  by_cases hdashes : ['-', '-'] <+: s
  · obtain ⟨t, rfl⟩ := hdashes
    have hskip : skip (['-', '-'] ++ t) = skipComment t := if_pos (List.prefix_append _ t)
    rw [hskip]
    rcases skipComment_cases t with ⟨text, rest, hto, ht, hcomment⟩ | ⟨level, u, hopen, rfl, hnone⟩
    · obtain ⟨u, htext⟩ := hcomment.exists_eq
      exact .inl ⟨text, rest, hto, ht, by simp [htext], .comment hcomment⟩
    · exact .inr (.inl ⟨level, u, hopen, rfl, hnone⟩)
  · have hskip : skip s = skipBlank s := if_neg hdashes
    rw [hskip]
    cases s with
    | nil => exact .inr (.inr ⟨rfl, hdashes, startsOutside_nil⟩)
    | cons c t =>
        by_cases hblank : c ∈ spaces.toList
        · exact .inl ⟨[c], t, if_pos hblank, rfl, nofun, .blank hblank⟩
        · exact .inr (.inr ⟨if_neg hblank, hdashes, startsOutside_cons.mpr hblank⟩)

/-- A skip takes something away. -/
theorem length_lt_of_skip (h : skip s = .to rest) : rest.length < s.length := by
  rcases skip_cases s with ⟨text, other, hskip, rfl, htext, -⟩ | ⟨level, t, hskip, -⟩ | ⟨hskip, -⟩
  · cases hskip.symm.trans h
    have hlength := List.length_pos_iff.mpr htext
    rw [List.length_append]
    omega
  · nomatch hskip.symm.trans h
  · nomatch hskip.symm.trans h

/-- What skipping comes to. -/
inductive Skipped
  /-- It ends before this rest of the text. -/
  | upTo (rest : List Char)
  /-- It ends in an error, at a bracket of this level that is never closed. -/
  | unclosed (level : Nat) (text : List Char)
  deriving DecidableEq, Repr

/-- Skip blanks and comments as long as there are any. -/
def skipAll (s : List Char) : Skipped :=
  match _h : skip s with
  | .to rest => skipAll rest
  | .unclosed level text => .unclosed level text
  | .none => .upTo s
termination_by s.length
decreasing_by exact length_lt_of_skip _h

theorem skipAll_of_to (h : skip s = .to rest) : skipAll s = skipAll rest := by
  rw [skipAll]
  split <;> simp_all

theorem skipAll_of_unclosed {text : List Char} (h : skip s = .unclosed level text) :
    skipAll s = .unclosed level text := by
  rw [skipAll]
  split <;> simp_all

theorem skipAll_of_none (h : skip s = .none) : skipAll s = .upTo s := by
  rw [skipAll]
  split <;> simp_all

end Padding

/-! ## The rules -/

variable {σ : Type}

namespace Matching

variable {setting : Setting σ} {depth : Nat} {p q : Pattern} {items : List Pattern}
  {st next : State σ} {stop : Stop}

theorem run_of_take {t : Terminal} {count : Nat} (h : t.scan setting.text st.offset = .take count) :
    run setting (depth + 1) (.terminal t) st = ⟨.matched, st.advance count⟩ := by
  simp only [run, terminal, h]

theorem run_of_miss {t : Terminal} (h : t.scan setting.text st.offset = .miss) :
    run setting (depth + 1) (.terminal t) st = ⟨.failed, st.noteFailure⟩ := by
  simp only [run, terminal, h]

theorem run_of_unclosed {t : Terminal} {level : Nat}
    (h : t.scan setting.text st.offset = .unclosed level) :
    run setting (depth + 1) (.terminal t) st =
      ⟨.stopped (.fault (st.unclosedBracket level st.offset)), st⟩ := by
  simp only [run, terminal, h]

/-- What stops the second item stops the sequence. -/
theorem stopped_of_second (hfirst : run setting depth p st = ⟨.matched, next⟩)
    (hsecond : (run setting depth q next).verdict = .stopped stop) :
    (run setting (depth + 1) (.seq (p :: q :: items)) st).verdict = .stopped stop := by
  rcases hq : run setting depth q next with ⟨verdict, last⟩
  rw [hq] at hsecond
  dsimp only at hsecond
  subst hsecond
  simp only [run, sequence, hfirst, hq]

/-- What stops the first alternative stops the choice. -/
theorem stopped_of_alternative (hfirst : (run setting depth p st).verdict = .stopped stop) :
    (run setting (depth + 1) (.choice (p :: items)) st).verdict = .stopped stop := by
  rcases hp : run setting depth p st with ⟨verdict, last⟩
  rw [hp] at hfirst
  dsimp only at hfirst
  subst hfirst
  simp only [run, choice, hp]

/-- What stops the second alternative stops the choice, if the first one fails. -/
theorem stopped_of_otherwise (hfirst : run setting depth p st = ⟨.failed, next⟩)
    (hsecond : (run setting depth q (next.returnTo setting.observer st)).verdict = .stopped stop) :
    (run setting (depth + 1) (.choice (p :: q :: items)) st).verdict = .stopped stop := by
  rcases hq : run setting depth q (next.returnTo setting.observer st) with ⟨verdict, last⟩
  rw [hq] at hsecond
  dsimp only at hsecond
  subst hsecond
  simp only [run, choice, hfirst, hq]

/-- What stops the body of a rule stops the rule. -/
theorem stopped_of_body {rule : Rule} {site : Site} (hfound : setting.rule? rule.name = some rule)
    (hlinked : setting.isLinked site rule.name = true)
    (h : (run setting depth rule.body (st.enter rule)).verdict = .stopped stop) :
    (run setting (depth + 2) (.ref site rule.name) st).verdict = .stopped stop := by
  rcases hbody : run setting depth rule.body (st.enter rule) with ⟨verdict, last⟩
  rw [hbody] at h
  dsimp only at h
  subst h
  simp only [run, hlinked, if_true, hfound, named, hbody]

end Matching

variable {dialect : Dialect} {text : Array Char} {observer : Observer σ} {depth level : Nat}
  {st : State σ} {s t : List Char}

namespace Dialect

/-- A rule called by its name is stopped by what stops its body. -/
theorem run_call_stopped {rule : Rule} (hrule : rule ∈ dialect.rules) {stop : Stop}
    (h : (Matching.run (dialect.grammar.setting text observer) depth rule.body
      (st.enter rule)).verdict = .stopped stop) :
    (Matching.run (dialect.grammar.setting text observer) (depth + 2) (.call rule.name)
      st).verdict = .stopped stop :=
  Matching.stopped_of_body (rule?_grammar hrule) (isLinked_of_mem hrule) h

/-- Behind two dashes an unclosed bracket is an error, at the bracket and inside the rules that
led there. -/
theorem run_sep_unclosed (hst : st.offset ≤ text.size)
    (hs : Text.rest text st.offset = '-' :: '-' :: (openingBracket level ++ t))
    (hnone : ¬closingBracket level <:+: t) :
    (Matching.run (dialect.grammar.setting text observer) (depth + 10) (.call "sep") st).verdict =
      .stopped (.fault (.unclosedBracket level (st.offset + 2)
        (st.ruleStack.reverse ++ ["sep", "comment", "long_string"]))) := by
  have hcomment : comment ∈ dialect.rules := by simp [rules, lexicalRules]
  have hlong : longString ∈ dialect.rules := by simp [rules, lexicalRules]
  have hsize : st.offset + 2 ≤ text.size := by
    have hlength := congrArg List.length hs
    simp only [Text.length_rest, List.length_cons] at hlength
    omega
  have hblank : (oneOf spaces.toList false).scan text st.offset = .miss := by
    rw [scan_eq_scan_rest _ hst, hs]
    rfl
  have hdashes : (literal "--".toList false).scan text st.offset = .take 2 := by
    rw [scan_eq_scan_rest _ hst, hs]
    simp [scan, Text.startsAt]
  have hbracket : longBracket.scan text (st.offset + 2) = .unclosed level := by
    have hbehind : Text.rest text (st.offset + 2) = openingBracket level ++ t := by
      rw [Text.rest_add, hs]
      rfl
    rw [scan_eq_scan_rest _ hsize, hbehind, scan_longBracket]
    rcases Text.find?_toArray_zero (closingBracket level) t with ⟨before, hbefore, -⟩ | ⟨-, hsearch⟩
    · exact absurd ((List.suffix_append before _).isInfix.trans hbefore.isInfix) hnone
    · rw [hsearch]
  -- From the choice in the rule of separators down to the bracket.
  have hoffset : ((st.enter sep).noteFailure.returnTo observer (st.enter sep)).offset = st.offset :=
    rfl
  have hstack : ((st.enter sep).noteFailure.returnTo observer (st.enter sep)).ruleStack =
      "sep" :: st.ruleStack := (State.Around.refl (st.enter sep)).noteFailure.ruleStack
  generalize hback : (st.enter sep).noteFailure.returnTo observer (st.enter sep) = back
    at hoffset hstack
  refine run_call_stopped mem_sep (Matching.stopped_of_otherwise (Matching.run_of_miss hblank) ?_)
  change (Matching.run _ _ _
    ((st.enter sep).noteFailure.returnTo observer (st.enter sep))).verdict = _
  rw [hback]
  have hfirst : Matching.run (dialect.grammar.setting text observer) (depth + 4) (.text "--")
      (back.enter comment) = ⟨.matched, (back.enter comment).advance 2⟩ :=
    Matching.run_of_take (by rw [State.enter]; exact hoffset ▸ hdashes)
  refine run_call_stopped hcomment (Matching.stopped_of_second hfirst ?_)
  refine Matching.stopped_of_alternative (run_call_stopped hlong ?_)
  rw [longString, @Matching.run_of_unclosed _ _ _ _ _ level]
  · simp [State.unclosedBracket, State.enter, State.advance, State.moveTo, hoffset, hstack,
      comment]
  · simpa [State.enter, State.advance, State.moveTo, hoffset, Grammar.setting] using hbracket

theorem staysIn_sep (dialect : Dialect) : (Pattern.call "sep").staysIn dialect 11 = true := by
  cases dialect <;> decide

theorem sound_sep (dialect : Dialect) :
    (Pattern.call "sep").sound (recordable dialect).toSound.traits = true := by
  have hbody := (recordable dialect).sound seps (by rw [rules_grammar]; exact mem_seps)
  have hstar : seps.body = .star none (.call "sep") := rfl
  simp only [hstar, Pattern.sound, Bool.and_eq_true] at hbody
  exact hbody.2

/-- A separator is what one skip goes over. -/
theorem run_sep_took (hdepth : 11 ≤ depth) (hst : st.offset ≤ text.size) {taken rest : List Char}
    (hs : Text.rest text st.offset = taken ++ rest) (h : Separator taken rest) :
    (Matching.run (dialect.grammar.setting text observer) depth (.call "sep") st).Took st
      taken := by
  obtain ⟨parts, hparts⟩ : Takes dialect.grammar (.call "sep") _ _ := takes_sep.mpr ⟨taken, h, hs⟩
  have hanswers :=
    answers_run (recordable dialect).toSound text observer depth (sound_sep dialect) st hst
  exact hanswers.took hs hst (.of_staysIn (staysIn_sep dialect) hparts hdepth)

/-- There is no separator where there is nothing to skip. -/
theorem run_sep_missed (hdepth : 11 ≤ depth) (hst : st.offset ≤ text.size)
    (hdashes : ¬['-', '-'] <+: Text.rest text st.offset)
    (hblank : StartsOutside spaces.toList (Text.rest text st.offset)) :
    (Matching.run (dialect.grammar.setting text observer) depth (.call "sep") st).Missed st := by
  have hcomment : comment ∈ dialect.rules := by simp [rules, lexicalRules]
  have hfailed : Derives dialect.grammar (.call "sep") (Text.rest text st.offset) .failed := by
    have hnone : Derives dialect.grammar comment.body (Text.rest text st.offset) .failed :=
      .seqStop (failed_literal_iff.mpr hdashes) id
    exact failed_call mem_sep (.choiceNext (failed_oneOf_iff.mpr hblank)
      (.choiceNext (failed_call hcomment hnone) (.choiceNil _)))
  have hanswers :=
    answers_run (recordable dialect).toSound text observer depth (sound_sep dialect) st hst
  exact hanswers.missed (.of_staysIn (staysIn_sep dialect) hfailed hdepth)

end Dialect

namespace Padding

/-- Whether an outcome inside some rules is what skipping comes to. -/
def Ends (text : Array Char) (context : List String) (outcome : Outcome σ) : Skipped → Prop
  | .upTo rest => outcome.verdict = .matched ∧ outcome.state.offset ≤ text.size ∧
      Text.rest text outcome.state.offset = rest
  | .unclosed level opened => outcome.verdict = .stopped (.fault
      (.unclosedBracket level (text.size - opened.length) context))

/-- The loop over separators is the loop over skips. -/
theorem ends_repeated (dialect : Dialect) (observer : Observer σ) (hdepth : 11 ≤ depth)
    {rounds : Nat} (hst : st.offset ≤ text.size) (hrounds : text.size < st.offset + rounds) :
    Ends text (st.ruleStack.reverse ++ ["sep", "comment", "long_string"])
      (Matching.repeated observer
        (Matching.run (dialect.grammar.setting text observer) depth (.call "sep")) rounds st)
      (skipAll (Text.rest text st.offset)) := by
  induction rounds generalizing st with
  | zero => omega
  | succ rounds ih =>
      rw [Matching.repeated]
      have haround := (Matching.framing_run (dialect.grammar.setting text observer) depth
        (.call "sep") st).around
      rcases skip_cases (Text.rest text st.offset) with
        ⟨taken, rest, hskip, hs, htaken, hseparator⟩ | ⟨level, t, hskip, hs, hnone⟩ |
        ⟨hskip, hdashes, hblank⟩
      · obtain ⟨hmatched, hoffset⟩ : (Matching.run (dialect.grammar.setting text observer) depth
          (.call "sep") st).Took st taken := run_sep_took hdepth hst hs hseparator
        rcases hround : Matching.run (dialect.grammar.setting text observer) depth (.call "sep") st
          with ⟨verdict, next⟩
        rw [hround] at hmatched hoffset haround
        dsimp only at hmatched hoffset haround
        subst hmatched
        have hrest : Text.rest text next.offset = rest := by
          rw [hoffset, Text.rest_add, hs, List.drop_left]
        have hlength := congrArg List.length hs
        have hpositive := List.length_pos_iff.mpr htaken
        rw [Text.length_rest, List.length_append] at hlength
        have hnext : next.offset ≤ text.size ∧ text.size < next.offset + rounds := by omega
        have hends := ih hnext.1 hnext.2
        rwa [hrest, haround.ruleStack, ← skipAll_of_to hskip] at hends
      · obtain ⟨below, rfl⟩ : ∃ below, depth = below + 10 := ⟨depth - 10, by omega⟩
        have hstopped : (Matching.run (dialect.grammar.setting text observer) (below + 10)
          (.call "sep") st).verdict = _ := run_sep_unclosed hst hs hnone
        rcases hround : Matching.run (dialect.grammar.setting text observer) (below + 10)
          (.call "sep") st with ⟨verdict, next⟩
        rw [hround] at hstopped
        dsimp only at hstopped
        subst hstopped
        have hlength := congrArg List.length hs
        simp only [Text.length_rest, List.length_cons] at hlength
        have hplace : text.size - (openingBracket level ++ t).length = st.offset + 2 := by omega
        rw [skipAll_of_unclosed hskip, Ends, hplace]
      · obtain ⟨hfailed, -⟩ : (Matching.run (dialect.grammar.setting text observer) depth
          (.call "sep") st).Missed st := run_sep_missed hdepth hst hdashes hblank
        rcases hround : Matching.run (dialect.grammar.setting text observer) depth (.call "sep") st
          with ⟨verdict, next⟩
        rw [hround] at hfailed
        dsimp only at hfailed
        subst hfailed
        rw [skipAll_of_none hskip]
        exact ⟨rfl, hst, rfl⟩

end Padding

/-- The rule of padding goes as far as skipping does, and ends no token.  Where skipping comes
upon a bracket that is never closed, the text is in error at this bracket. -/
theorem padding_is_skipped (dialect : Dialect) (text : Array Char) (observer : Observer σ)
    {depth : Nat} (hdepth : 13 ≤ depth) {st : State σ} (hst : st.offset ≤ text.size)
    (hpadding : 0 ≤ st.padding) :
    let outcome := Matching.run (dialect.grammar.setting text observer) depth (.rule "seps") st
    match Padding.skipAll (Text.rest text st.offset) with
    | .upTo rest => outcome.verdict = .matched ∧ outcome.state.offset = text.size - rest.length ∧
        Text.rest text outcome.state.offset = rest ∧ outcome.state.tokenEnd = st.tokenEnd
    | .unclosed level opened => ∃ fault, outcome.verdict = .stopped (.fault fault) ∧
        fault = .unclosedBracket level (text.size - opened.length)
          (st.ruleStack.reverse ++ ["seps", "sep", "comment", "long_string"]) ∧
        ∀ source known, (ParseError.ofFault source known fault).code = "P002" := by
  obtain ⟨below, rfl⟩ : ∃ below, depth = below + 2 := ⟨depth - 2, by omega⟩
  intro outcome
  have houtcome : outcome = Matching.named observer seps (Matching.repeated observer
      (Matching.run (dialect.grammar.setting text observer) below (.call "sep"))
      (Matching.roundLimit text)) st := by
    have hfound : (dialect.grammar.setting text observer).rule? "seps" = some seps :=
      rule?_grammar mem_seps
    simp only [outcome, Matching.run, hfound]
    rfl
  have hbelow : 11 ≤ below := by omega
  have hinner : (st.enter seps).offset ≤ text.size := hst
  have hrounds : text.size < (st.enter seps).offset + Matching.roundLimit text :=
    Nat.lt_add_left _ (by rw [Matching.roundLimit]; omega)
  have hends := Padding.ends_repeated dialect observer hbelow hinner hrounds
  have hmoves := State.moves_rests (dialect.grammar.setting text observer)
  have hsep : ∀ a : State σ, a.Rests (Matching.run (dialect.grammar.setting text observer) below
      (.call "sep") a).state := hmoves.run below trivial
  have hrests : (st.enter seps).Rests (Matching.repeated observer
      (Matching.run (dialect.grammar.setting text observer) below (.call "sep"))
      (Matching.roundLimit text) (st.enter seps)).state := by
    rw [Matching.repeated_eq_looped]
    exact hmoves.looped hsep (Matching.roundLimit text) (.refl (st.enter seps))
  rw [Matching.named] at houtcome
  rcases hloop : Matching.repeated observer
    (Matching.run (dialect.grammar.setting text observer) below (.call "sep"))
    (Matching.roundLimit text) (st.enter seps) with ⟨verdict, last⟩
  rw [hloop] at houtcome hends hrests
  have hrest : Text.rest text (st.enter seps).offset = Text.rest text st.offset := rfl
  rw [hrest] at hends
  cases hskipped : Padding.skipAll (Text.rest text st.offset) with
  | upTo rest =>
      rw [hskipped] at hends
      obtain ⟨hmatched, hsize, hlast⟩ := hends
      dsimp only at hmatched hsize hlast hrests
      subst hmatched
      have hpadded : 0 < (st.enter seps).padding := Int.lt_add_one_of_le hpadding
      have hoffset : outcome.state.offset = last.offset := by
        rw [houtcome]
        exact State.offset_announce _ _ _ _
      have htokenEnd : outcome.state.tokenEnd = st.tokenEnd := by
        rw [houtcome]
        exact (State.tokenEnd_announce _ _ _ _).trans (hrests.tokenEnd hpadded)
      have hlength := congrArg List.length hlast
      rw [Text.length_rest] at hlength
      refine ⟨by rw [houtcome], ?_, hoffset ▸ hlast, htokenEnd⟩
      omega
  | unclosed level opened =>
      rw [hskipped] at hends
      have hstopped : verdict = _ := hends
      subst hstopped
      refine ⟨_, by rw [houtcome], ?_, fun _ _ => rfl⟩
      simp [State.enter, seps]

/-- A closing bracket of another level does not end a long comment. -/
theorem padding_is_skipped_unclosed :
    let text := #['x', ' ', '-', '-', '[', '=', '[', ']', ']']
    let outcome := Matching.run (Dialect.pico8.grammar.setting text (Observer.idle Unit)) 13
      (.rule "seps") ((State.initial ()).moveTo 1)
    ∃ fault, outcome.verdict = .stopped (.fault fault) ∧
      fault = .unclosedBracket 1 4 ["seps", "sep", "comment", "long_string"] ∧
      ∀ source known, (ParseError.ofFault source known fault).code = "P002" := by
  intro text outcome
  have hoffset : ((State.initial ()).moveTo 1).offset = 1 := rfl
  have hskipped := padding_is_skipped .pico8 text (Observer.idle Unit) (Nat.le_refl 13)
    (by rw [hoffset]; decide : ((State.initial ()).moveTo 1).offset ≤ text.size) (by decide)
  have hblank : Padding.skip (Text.rest text 1) =
      .to ['-', '-', '[', '=', '[', ']', ']'] := by decide
  have hbracket : Padding.skip ['-', '-', '[', '=', '[', ']', ']'] =
      .unclosed 1 ['[', '=', '[', ']', ']'] := by decide
  rw [hoffset, Padding.skipAll_of_to hblank, Padding.skipAll_of_unclosed hbracket] at hskipped
  exact hskipped

end CartLua
