import CartLua.Proofs.Lexical.LongBrackets

/-!
# Padding

Padding is a row of blanks and comments.  A comment is two dashes with a long bracket, or with
the rest of the line, which takes the line end along.  So what padding takes hardly depends on
what comes after it: only a comment that runs to the end of the text must have nothing behind it.
For that reason padding may be cut out of a text and is still padding on its own.
-/

namespace CartLua

open Dialect Terminal

/-! ## Lines -/

theorem Terminal.answer_endOfLine_feed (t : List Char) :
    (endOfLine true).answer ('\n' :: t) = .matched [.chars ['\n']] t := by
  simp [answer, scan, Text.startsAt]

theorem Terminal.answer_endOfLine_return (t : List Char) :
    (endOfLine true).answer ('\r' :: '\n' :: t) = .matched [.chars ['\r', '\n']] t := by
  simp [answer, scan, Text.startsAt]

/-- A line ends at a line feed, perhaps with a carriage return before it, and with the text. -/
theorem Terminal.answer_endOfLine_cases (s : List Char) :
    (s = [] ∧ (endOfLine true).answer s = .matched [] []) ∨
      (∃ t, s = '\n' :: t ∧ (endOfLine true).answer s = .matched [.chars ['\n']] t) ∨
      (∃ t, s = '\r' :: '\n' :: t ∧
        (endOfLine true).answer s = .matched [.chars ['\r', '\n']] t) ∨
      ∃ c t, s = c :: t ∧ c ≠ '\n' ∧ (endOfLine true).answer s = .failed := by
  cases s with
  | nil => exact .inl ⟨rfl, rfl⟩
  | cons c t =>
      by_cases hfeed : c = '\n'
      · subst hfeed
        exact .inr (.inl ⟨t, rfl, answer_endOfLine_feed t⟩)
      by_cases hboth : c = '\r' ∧ ∃ u, t = '\n' :: u
      · obtain ⟨rfl, u, rfl⟩ := hboth
        exact .inr (.inr (.inl ⟨u, rfl, answer_endOfLine_return u⟩))
      · have hmiss : (endOfLine true).scan (c :: t).toArray 0 = .miss := by
          have hsecond : Text.startsAt (c :: t).toArray ['\r', '\n'] 0 ≠ true := by
            rw [Ne, Text.startsAt_iff]
            rintro ⟨-, u, hu⟩
            cases hu
            exact hboth ⟨rfl, u, rfl⟩
          have hfirst : Text.startsAt (c :: t).toArray ['\n'] 0 ≠ true := by
            simpa [Text.startsAt] using hfeed
          rw [scan, if_neg (by simp), if_neg hfirst, if_neg hsecond]
        exact .inr (.inr (.inr ⟨c, t, rfl, hfeed, by rw [answer, hmiss]⟩))

section

variable {g : Grammar} {c : Char} {s t rest : List Char}

/-- The first line feed ends a line. -/
theorem eq_of_append_lineFeed {line other : List Char} (hline : '\n' ∉ line) (hother : '\n' ∉ other)
    (h : line ++ '\n' :: s = other ++ '\n' :: t) : line = other ∧ s = t := by
  have htaken : ∀ {u v : List Char}, '\n' ∉ u → (u ++ '\n' :: v).takeWhile (· != '\n') = u := by
    intro u v hu
    rw [List.takeWhile_append_of_pos, List.takeWhile_cons_of_neg (by decide), List.append_nil]
    rintro c hc
    exact bne_iff_ne.mpr fun h => hu (h ▸ hc)
  have heq : line = other := by rw [← htaken hline, h, htaken hother]
  subst heq
  rw [List.append_cancel_left_eq, List.cons.injEq] at h
  exact ⟨rfl, h.2⟩

/-- A text has one first line. -/
theorem eq_iff_of_line (line : List Char) (hline : '\n' ∉ line) : rest = t ↔
    ∃ other, '\n' ∉ other ∧
      (line ++ '\n' :: t = other ++ '\n' :: rest ∨ line ++ '\n' :: t = other ∧ rest = []) := by
  constructor
  · rintro rfl
    exact ⟨line, hline, .inl rfl⟩
  · rintro ⟨other, hother, h | ⟨rfl, -⟩⟩
    · exact (eq_of_append_lineFeed hline hother h).2.symm
    · simp at hother

/-- What is skipped up to a line end is the rest of the line. -/
theorem takes_restOfLine : Takes g (.skipTo (.terminal (.endOfLine true))) s rest ↔
    ∃ line, '\n' ∉ line ∧ (s = line ++ '\n' :: rest ∨ s = line ∧ rest = []) := by
  induction s generalizing rest with
  | nil =>
      rw [takes_skipTo_of_matched (.of_answer (t := .endOfLine true) rfl)]
      constructor
      · rintro rfl
        exact ⟨[], List.not_mem_nil, .inr ⟨rfl, rfl⟩⟩
      · rintro ⟨line, -, hs | ⟨-, rfl⟩⟩
        · simp at hs
        · rfl
  | cons c t ih =>
      rcases answer_endOfLine_cases (c :: t) with
        ⟨hs, -⟩ | ⟨u, hs, hanswer⟩ | ⟨u, hs, hanswer⟩ | ⟨d, u, hs, hfeed, hanswer⟩
      · cases hs
      · rw [takes_skipTo_of_matched (.of_answer hanswer), hs]
        exact eq_iff_of_line [] List.not_mem_nil
      · rw [takes_skipTo_of_matched (.of_answer hanswer), hs]
        exact eq_iff_of_line ['\r'] (by simp)
      · cases hs
        rw [takes_skipTo_of_failed (.of_answer hanswer), ih]
        constructor
        · rintro ⟨line, hline, h⟩
          refine ⟨c :: line, by simpa [Ne.symm hfeed] using hline, ?_⟩
          simpa using h
        · rintro ⟨line, hline, h⟩
          cases line with
          | nil => simp [hfeed] at h
          | cons d line =>
              simp only [List.mem_cons, not_or] at hline
              refine ⟨line, hline.2, ?_⟩
              simp only [List.cons_append, List.cons.injEq] at h
              exact h.imp And.right fun h => ⟨h.1.2, h.2⟩

end

/-! ## Comments -/

/-- What may be a comment in front of a text. -/
inductive Comment : (text rest : List Char) → Prop
  | long {level : Nat} {body rest : List Char} (closes : ClosesFirst level body) :
      Comment ('-' :: '-' :: (openingBracket level ++ (body ++ closingBracket level))) rest
  | line {line rest : List Char} (within : '\n' ∉ line)
      (unopened : ∀ level, ¬openingBracket level <+: line) :
      Comment ('-' :: '-' :: (line ++ ['\n'])) rest
  /-- The last line of a text needs no end. -/
  | last {line : List Char} (within : '\n' ∉ line)
      (unopened : ∀ level, ¬openingBracket level <+: line) : Comment ('-' :: '-' :: line) []

/-- A blank or a comment in front of a text. -/
inductive Separator : (text rest : List Char) → Prop
  | blank {c : Char} {rest : List Char} (mem : c ∈ spaces.toList) : Separator [c] rest
  | comment {text rest : List Char} (comment : Comment text rest) : Separator text rest

/-- Blanks and comments in front of a text. -/
inductive Padding : (text rest : List Char) → Prop
  | nil (rest : List Char) : Padding [] rest
  | cons {text more rest : List Char} (first : Separator text (more ++ rest))
      (others : Padding more rest) : Padding (text ++ more) rest

section

variable {text more s rest other : List Char}

/-- A comment is one in front of every text, if it does not end with the text. -/
theorem Comment.transfer (h : Comment text rest) (hend : rest = [] → other = []) :
    Comment text other := by
  cases h with
  | long closes => exact .long closes
  | line within unopened => exact .line within unopened
  | last within unopened => exact hend rfl ▸ .last within unopened

theorem Separator.transfer (h : Separator text rest) (hend : rest = [] → other = []) :
    Separator text other := by
  cases h with
  | blank mem => exact .blank mem
  | comment h => exact .comment (h.transfer hend)

/-- Padding is padding in front of every text, if it does not end with the text. -/
theorem Padding.transfer (h : Padding text rest) (hend : rest = [] → other = []) :
    Padding text other := by
  induction h with
  | nil rest => exact .nil other
  | cons first _ ih =>
      refine .cons (first.transfer fun hnone => ?_) (ih hend)
      obtain ⟨hmore, hrest⟩ := List.append_eq_nil_iff.mp hnone
      rw [hmore, hend hrest, List.append_nil]

theorem Padding.append (h : Padding text (more ++ rest)) (hmore : Padding more rest) :
    Padding (text ++ more) rest := by
  generalize hs : more ++ rest = s at h
  induction h with
  | nil _ => exact hmore
  | @cons text others s first _ ih =>
      subst hs
      rw [List.append_assoc]
      refine .cons ?_ (ih rfl)
      rwa [List.append_assoc]

theorem Padding.of_separator (h : Separator text rest) : Padding text rest := by
  rw [← List.append_nil text]
  exact .cons h (.nil rest)

/-- Blanks in a row are padding. -/
theorem Padding.of_blanks (h : ∀ c ∈ text, c ∈ spaces.toList) : Padding text rest := by
  induction text with
  | nil => exact .nil rest
  | cons c text ih =>
      obtain ⟨hc, htext⟩ := List.forall_mem_cons.mp h
      exact .cons (.blank hc) (ih htext)

/-- A comment begins with its dashes. -/
theorem Comment.exists_eq (h : Comment text rest) : ∃ t, text = '-' :: '-' :: t := by
  cases h <;> exact ⟨_, rfl⟩

end

namespace Dialect

variable {dialect : Dialect} {s rest : List Char}

/-- What does not contain a character does not reach across it. -/
theorem prefix_append_cons_iff {cs line : List Char} {c : Char} (hc : c ∉ cs) :
    cs <+: line ++ c :: rest ↔ cs <+: line := by
  constructor
  · intro h
    rcases Nat.lt_or_ge line.length cs.length with hlt | hle
    · have hline : line ++ [c] <+: line ++ c :: rest := ⟨rest, by simp⟩
      have hmem : c ∈ cs :=
        (List.prefix_of_prefix_length_le hline h (by simpa using Nat.succ_le_of_lt hlt)).subset
          (by simp)
      exact absurd hmem hc
    · exact List.prefix_of_prefix_length_le h (List.prefix_append _ _) hle
  · exact fun h => h.trans (List.prefix_append _ _)

/-- No bracket is opened across a line end. -/
theorem openingBracket_prefix_line {level : Nat} {line : List Char} :
    openingBracket level <+: line ++ '\n' :: rest ↔ openingBracket level <+: line :=
  prefix_append_cons_iff (by simp [openingBracket])

theorem takes_comment : Takes dialect.grammar (.call "comment") s rest ↔
    ∃ text, Comment text rest ∧ s = text ++ rest := by
  have hcomment : comment ∈ dialect.rules := by simp [rules, lexicalRules]
  have hlong : longString ∈ dialect.rules := by simp [rules, lexicalRules]
  have hshort : shortComment ∈ dialect.rules := by simp [rules, lexicalRules]
  have hbody :
      comment.body = .seq [.text "--", .choice [.call "long_string", .call "short_comment"]] :=
    rfl
  have hlongTaken : ∀ s rest, Takes dialect.grammar (.call "long_string") s rest ↔ _ :=
    fun _ _ => (takes_call hlong).trans takes_longBracket
  have hlongFailed : ∀ s, Derives dialect.grammar (.call "long_string") s .failed ↔ _ :=
    fun _ => (failed_call_iff hlong).trans failed_longBracket_iff
  have hshortTaken : ∀ s rest, Takes dialect.grammar (.call "short_comment") s rest ↔ _ :=
    fun _ _ => (takes_call hshort).trans takes_restOfLine
  refine (takes_call hcomment).trans ?_
  simp only [hbody, Pattern.text, takes_seq_cons, takes_seq_nil, takes_literal, takes_choice_cons,
    takes_choice_nil, and_false, or_false, hlongTaken, hlongFailed, hshortTaken]
  constructor
  · rintro ⟨_, rfl, _, ⟨level, body, hcloses, rfl⟩ | ⟨hunopened, line, hline, rfl | ⟨rfl, rfl⟩⟩,
      rfl⟩
    · exact ⟨_, .long hcloses, by simp⟩
    · exact ⟨_, .line hline fun level h => hunopened level (openingBracket_prefix_line.mpr h),
        by simp⟩
    · exact ⟨_, .last hline hunopened, by simp⟩
  · rintro ⟨text, hcomment, rfl⟩
    cases hcomment with
    | @long level body _ hcloses =>
        exact ⟨openingBracket level ++ (body ++ closingBracket level ++ rest), by simp, rest,
          .inl ⟨level, body, hcloses, rfl⟩, rfl⟩
    | @line line _ hline hunopened =>
        have hnone : ∀ level, ¬openingBracket level <+: line ++ '\n' :: rest :=
          fun level h => hunopened level (openingBracket_prefix_line.mp h)
        exact ⟨line ++ '\n' :: rest, by simp, rest, .inr ⟨hnone, line, hline, .inl rfl⟩, rfl⟩
    | @last line hline hunopened =>
        exact ⟨line, by simp, [], .inr ⟨hunopened, line, hline, .inr ⟨rfl, rfl⟩⟩, rfl⟩

theorem takes_sep : Takes dialect.grammar (.call "sep") s rest ↔
    ∃ text, Separator text rest ∧ s = text ++ rest := by
  have hbody : sep.body = .choice [.one spaces, .call "comment"] := rfl
  refine (takes_call mem_sep).trans ?_
  simp only [hbody, Pattern.one, takes_choice_cons, takes_choice_nil, and_false, or_false,
    takes_oneOf, takes_comment, failed_oneOf_iff]
  constructor
  · rintro (⟨c, hc, rfl⟩ | ⟨-, text, hcomment, rfl⟩)
    · exact ⟨[c], .blank hc, rfl⟩
    · exact ⟨text, .comment hcomment, rfl⟩
  · rintro ⟨text, hseparator, rfl⟩
    cases hseparator with
    | @blank c _ hc => exact .inl ⟨c, hc, rfl⟩
    | comment hcomment =>
        obtain ⟨t, rfl⟩ := hcomment.exists_eq
        refine .inr ⟨?_, _, hcomment, rfl⟩
        rw [List.cons_append, startsOutside_cons]
        decide

/-- Nothing separates where a text ends. -/
theorem failed_sep_nil : Derives dialect.grammar (.call "sep") [] .failed := by
  have hcomment : comment ∈ dialect.rules := by simp [rules, lexicalRules]
  have hdashes : Derives dialect.grammar comment.body [] .failed :=
    .seqStop (.of_answer (t := .literal "--".toList false) rfl) id
  have hblank : Derives dialect.grammar (.one spaces) [] .failed := .of_answer rfl
  exact failed_call mem_sep
    (.choiceNext hblank (.choiceNext (failed_call hcomment hdashes) (.choiceNil [])))

/-- A loop over separators takes padding. -/
theorem padding_of_star {site : Site}
    (h : Takes dialect.grammar (.star site (.call "sep")) s rest) :
    ∃ text, Padding text rest ∧ s = text ++ rest := by
  obtain ⟨parts, h⟩ := h
  generalize hp : Pattern.star site (.call "sep") = p at h
  induction h using Derives.matched_induction with
  | starMore round _ _ ihothers =>
      cases hp
      obtain ⟨first, hfirst, rfl⟩ := takes_sep.mp ⟨_, round⟩
      obtain ⟨others, hothers, rfl⟩ := ihothers rfl
      exact ⟨first ++ others, .cons hfirst hothers, by simp⟩
  | starStop _ => exact ⟨[], .nil _, rfl⟩
  | _ => cases hp

/-- Padding that is a whole text is taken by a loop over separators. -/
theorem takes_star_of_padding {site : Site} (h : Padding s []) :
    Takes dialect.grammar (.star site (.call "sep")) s [] := by
  generalize hrest : ([] : List Char) = rest at h
  induction h with
  | nil _ =>
      subst hrest
      exact ⟨_, .starStop failed_sep_nil id⟩
  | @cons _ more _ first _ ih =>
      subst hrest
      rw [List.append_nil] at first
      obtain ⟨parts, hround⟩ := takes_sep.mpr ⟨_, first, rfl⟩
      obtain ⟨others, hothers⟩ := ih rfl
      exact ⟨_, .starMore hround hothers⟩

/-- A padding rule takes padding. -/
theorem padding_of_body {rule : Rule} (hrule : rule ∈ rules pico8) (hpadding : rule.padding = true)
    (h : Takes pico8.grammar rule.body s rest) : ∃ text, Padding text rest ∧ s = text ++ rest := by
  have hnames : (rules pico8).all (fun rule =>
      !rule.padding || rule.name == "sep" || rule.name == "seps" ||
        rule.name == "inline_space") = true := by
    decide
  have hname := List.all_eq_true.mp hnames rule hrule
  simp only [hpadding, Bool.not_true, Bool.false_or, Bool.or_eq_true, beq_iff_eq] at hname
  rcases hname with (hname | hname) | hname
  · obtain rfl := eq_of_name_eq hrule mem_sep hname
    obtain ⟨text, htext, rfl⟩ := takes_sep.mp ((takes_call mem_sep).mpr h)
    exact ⟨text, .of_separator htext, rfl⟩
  · obtain rfl := eq_of_name_eq hrule mem_seps hname
    exact padding_of_star h
  · have hinline : inlineSpace ∈ rules pico8 := by simp [rules, blockRules, extension]
    obtain rfl := eq_of_name_eq hrule hinline hname
    obtain ⟨text, -, htext, -, rfl⟩ := takes_plus_oneOf.mp h
    have hspaces : ∀ c ∈ " \t".toList, c ∈ spaces.toList := forall_mem_of_all (by decide)
    exact ⟨text, .of_blanks fun c hc => hspaces c (htext c hc), rfl⟩

/-- The rule of padding matches a text as a whole just when it is padding. -/
theorem isMatch_seps_iff {limit : Int} {source : Source} :
    ((dialect.parser limit).isMatch "seps" source).1 = .ok true ↔ Padding source.chars [] := by
  have hstays : (Pattern.rule "seps").staysIn dialect 16 = true := by
    cases dialect <;> decide
  have hname : "seps" ∈ dialect.rules.map Rule.name := List.mem_map_of_mem mem_seps
  rw [isMatch_iff hname hstays (by decide)]
  constructor
  · rintro ⟨tree, h⟩
    obtain ⟨inner, -, hinner⟩ := derives_of_rule mem_seps h
    obtain ⟨text, htext, hs⟩ := padding_of_star ⟨inner, hinner⟩
    rwa [hs, List.append_nil]
  · intro h
    obtain ⟨inner, hinner⟩ : Takes dialect.grammar (.star none (.call "sep")) source.chars [] :=
      takes_star_of_padding h
    exact ⟨_, .rule (rule?_grammar mem_seps) hinner⟩

end Dialect

end CartLua
