import CartLua.Proofs.Derivation.RulePlaces
import CartLua.Proofs.Desugar.LinePreservation
import CartLua.Proofs.Fix.ShortIfEnd
import CartLua.Proofs.Lexical.WordClasses

/-!
# How far a short `if` reaches

The body of a short `if` is not parsed.  It is passed over piece by piece: a string literal, a whole
word, some blanks, or a single character.  So the end of the line, two dashes and the keyword `end`
are seen between pieces only, and neither those in a string nor an `end` in a longer word stop it.

Character by character this needs no pieces but the strings.  It is enough to keep in mind whether
a word goes on, since no keyword begins inside a word.

No comparison and no compound assignment is recorded in a body that is not parsed, and those around
it hold all of it.  So it is copied as it stands.
-/

namespace CartLua

open Dialect Pattern

/-- Whether a word goes on at a character, if one goes on before it or not. -/
def wordGoesOn (inWord : Bool) (c : Char) : Bool :=
  if inWord then Terminal.isIdentifierPart c else Terminal.isIdentifierFirst c

/-- Whether a short `if` ends before a text: at a line break, at two dashes, at the keyword `end`,
which does not begin inside a word, or because nothing is left. -/
def EndsShortIf (inWord : Bool) (s : List Char) : Prop :=
  s = [] ∨ (∃ c t, c ∈ "\r\n".toList ∧ s = c :: t) ∨ "--".toList <+: s ∨
    inWord = false ∧ ∃ t, s = "end".toList ++ t ∧ EndsWord t

/-- Whether the body of a short `if` goes on for some characters before the rest of the text, when
a word goes on before them or not: it takes string literals whole, and other characters as long as
the short `if` does not end there. -/
inductive ShortIfExtent : Bool → List Char → List Char → Prop
  /-- The short `if` ends. -/
  | done {inWord : Bool} {rest : List Char} (ends : EndsShortIf inWord rest) :
      ShortIfExtent inWord [] rest
  /-- There is a string literal, whatever is in it. -/
  | literal {inWord : Bool} {taken more rest : List Char}
      (literal :
        Takes pico8.grammar (call "literal_string") (taken ++ (more ++ rest)) (more ++ rest))
      (others : ShortIfExtent false more rest) : ShortIfExtent inWord (taken ++ more) rest
  /-- There is a character that begins no string literal. -/
  | plain {inWord : Bool} {c : Char} {more rest : List Char}
      (goesOn : ¬EndsShortIf inWord (c :: (more ++ rest)))
      (plain : Derives pico8.grammar (call "literal_string") (c :: (more ++ rest)) .failed)
      (others : ShortIfExtent (wordGoesOn inWord c) more rest) :
      ShortIfExtent inWord (c :: more) rest

namespace Dialect

variable {g : Grammar} {inWord : Bool} {s t rest more : List Char} {c : Char}

/-! ## Runs of characters -/

/-- A string literal begins with a quote or a bracket. -/
theorem failed_literalString (hc : c ∉ "\"'[".toList) :
    Derives pico8.grammar (call "literal_string") (c :: s) .failed := by
  have hdouble : doubleQuoteString ∈ rules pico8 := by simp [rules, lexicalRules]
  have hsingle : singleQuoteString ∈ rules pico8 := by simp [rules, lexicalRules]
  have hlong : longString ∈ rules pico8 := by simp [rules, lexicalRules]
  have hliteral : literalString ∈ rules pico8 := by simp [rules, lexicalRules]
  have houtside : ∀ chars : List Char, chars ⊆ "\"'[".toList → StartsOutside chars (c :: s) :=
    fun chars hchars => startsOutside_cons.mpr fun hmem => hc (hchars hmem)
  exact failed_call hliteral (failed_choice_cons_iff.mpr
    ⟨failed_call hdouble (failed_ifMust_one_iff.mpr (houtside _ (by decide))),
      failed_choice_cons_iff.mpr
        ⟨failed_call hsingle (failed_ifMust_one_iff.mpr (houtside _ (by decide))),
          failed_choice_cons_iff.mpr
            ⟨failed_call hlong (Terminal.failed_longBracket_of_head (houtside _ (by decide))),
              .choiceNil _⟩⟩⟩)

end Dialect

namespace ShortIfExtent

variable {inWord : Bool} {rest more : List Char} {c : Char}

/-- Most characters are passed over, but for the first one of a keyword outside a word. -/
theorem quiet (hc : c ∉ "\"'[\r\n-".toList) (hword : inWord = true ∨ c ≠ 'e')
    (others : ShortIfExtent (wordGoesOn inWord c) more rest) :
    ShortIfExtent inWord (c :: more) rest := by
  have hsplit : "\"'[\r\n-".toList = "\"'[".toList ++ ("\r\n".toList ++ "-".toList) := by decide
  rw [hsplit, List.mem_append, List.mem_append, not_or, not_or] at hc
  refine .plain ?_ (failed_literalString hc.1) others
  rintro (hnil | ⟨d, t, hd, heq⟩ | ⟨t, heq⟩ | ⟨hfree, t, heq, -⟩)
  · cases hnil
  · obtain ⟨rfl, -⟩ := List.cons.inj heq
    exact hc.2.1 hd
  · obtain rfl : '-' = c := by simpa using congrArg List.head? heq
    exact hc.2.2 (by decide)
  · obtain rfl : c = 'e' := by simpa using congrArg List.head? heq
    exact (hword.resolve_left (by simp [hfree])) rfl

/-- The rest of a word is passed over. -/
theorem word_tail {word : List Char}
    (hword : ∀ d ∈ word, Terminal.isIdentifierPart d = true)
    (others : ShortIfExtent true more rest) : ShortIfExtent true (word ++ more) rest := by
  induction word with
  | nil => exact others
  | cons d word ih =>
      obtain ⟨hd, hword⟩ := List.forall_mem_cons.mp hword
      have hout : nameCharacters.toList.all (fun d => !"\"'[\r\n-".toList.contains d) = true := by
        decide
      have hquiet := List.all_eq_true.mp hout d (Terminal.isIdentifierPart_iff.mp hd)
      refine .quiet (by simpa using hquiet) (.inl rfl) ?_
      rw [wordGoesOn, if_pos rfl, hd]
      exact ih hword

/-- A word is passed over, and goes on behind its characters. -/
theorem word {word : List Char} (hgoesOn : ¬EndsShortIf false (c :: (word ++ (more ++ rest))))
    (hplain : Derives pico8.grammar (call "literal_string") (c :: (word ++ (more ++ rest))) .failed)
    (hbegins : Terminal.isIdentifierFirst c = true)
    (hcontinues : ∀ d ∈ word, Terminal.isIdentifierPart d = true)
    (others : ShortIfExtent true more rest) : ShortIfExtent false (c :: word ++ more) rest := by
  rw [← List.append_assoc] at hgoesOn hplain
  refine .plain hgoesOn hplain ?_
  rw [wordGoesOn, if_neg Bool.false_ne_true, hbegins]
  exact word_tail hcontinues others

/-- Blanks are passed over, and no word goes on behind them. -/
theorem of_blanks {blanks : List Char} (hblanks : ∀ d ∈ blanks, d ∈ " \t".toList)
    (hne : blanks ≠ [] ∨ inWord = false) (others : ShortIfExtent false more rest) :
    ShortIfExtent inWord (blanks ++ more) rest := by
  induction blanks generalizing inWord with
  | nil =>
      obtain rfl := hne.resolve_left (absurd rfl)
      exact others
  | cons d blanks ih =>
      obtain ⟨hd, hblanks⟩ := List.forall_mem_cons.mp hblanks
      have hout : ∀ d ∈ " \t".toList, d ∉ "\"'[\r\n-".toList ∧ d ≠ 'e' ∧
          Terminal.isIdentifierPart d = false ∧ Terminal.isIdentifierFirst d = false :=
        forall_mem_of_all (by decide)
      obtain ⟨hquiet, hkeyword, hpart, hfirst⟩ := hout d hd
      refine .quiet hquiet (.inr hkeyword) ?_
      have hends : wordGoesOn inWord d = false := by
        cases inWord <;> simp [wordGoesOn, hpart, hfirst]
      rw [hends]
      exact ih hblanks (.inr rfl)

end ShortIfExtent

/-! ## Pieces -/

namespace Dialect

variable {inWord : Bool} {s rest : List Char}

/-- A short `if` ends where its grammar sees an end, unless a word goes on there. -/
theorem endsShortIf_of_takes (h : Takes pico8.grammar shortIfEnd s rest)
    (hword : inWord = true → EndsWord s) : EndsShortIf inWord s := by
  rcases takes_choice_cons.mp h with ⟨parts, hline⟩ | ⟨-, h⟩
  · have hanswer := hline.deterministic (.terminal (.endOfLine true) s)
    rcases Terminal.answer_endOfLine_cases s with
      ⟨rfl, -⟩ | ⟨t, rfl, -⟩ | ⟨t, rfl, -⟩ | ⟨c, t, rfl, -, hfails⟩
    · exact .inl rfl
    · exact .inr (.inl ⟨'\n', t, by decide, rfl⟩)
    · exact .inr (.inl ⟨'\r', '\n' :: t, by decide, rfl⟩)
    · cases hanswer.trans hfails
  rcases takes_choice_cons.mp h with hdashes | ⟨-, h⟩
  · exact .inr (.inr (.inl ⟨rest, (takes_literal.mp hdashes).symm⟩))
  rcases takes_choice_cons.mp h with ⟨parts, hkey⟩ | ⟨-, h⟩
  · obtain ⟨rfl, hends⟩ := of_key (by decide) hkey
    refine .inr (.inr (.inr ⟨?_, rest, rfl, hends⟩))
    cases inWord with
    | false => rfl
    | true => exact absurd (hword rfl) (by simp [EndsWord, nameCharacters])
  · exact absurd h takes_choice_nil

/-- Where its grammar sees no end, a short `if` may only end at a carriage return alone. -/
theorem not_endsShortIf_of_failed (h : Derives pico8.grammar shortIfEnd s .failed)
    (hreturn : ∀ t, s ≠ '\r' :: t) : ¬EndsShortIf inWord s := by
  simp only [shortIfEnd, failed_choice_cons_iff] at h
  obtain ⟨hline, hdashes, hkey, -⟩ := h
  have hanswer := hline.deterministic (.terminal (.endOfLine true) s)
  rcases Terminal.answer_endOfLine_cases s with
    ⟨-, hmatch⟩ | ⟨t, -, hmatch⟩ | ⟨t, -, hmatch⟩ | ⟨c, t, rfl, hfeed, -⟩
  · cases hanswer.trans hmatch
  · cases hanswer.trans hmatch
  · cases hanswer.trans hmatch
  rintro (hnil | ⟨d, u, hd, heq⟩ | hprefix | ⟨-, u, heq, hends⟩)
  · cases hnil
  · cases heq
    obtain rfl | rfl : c = '\r' ∨ c = '\n' := by simpa using hd
    · exact hreturn t rfl
    · exact hfeed rfl
  · exact failed_literal_iff.mp hdashes hprefix
  · rw [heq] at hkey
    obtain ⟨parts, htaken⟩ : Takes pico8.grammar (key "end") _ u := takes_key (by decide) hends
    cases hkey.deterministic htaken

/-- A piece of the body: a string literal, a word, blanks, or a single character. -/
inductive ShortIfPiece : List Char → List Char → Prop
  | literal {s rest : List Char} (literal : Takes pico8.grammar (call "literal_string") s rest) :
      ShortIfPiece s rest
  | word {c : Char} {word rest : List Char}
      (plain : Derives pico8.grammar (call "literal_string") (c :: (word ++ rest)) .failed)
      (begins : Terminal.isIdentifierFirst c = true)
      (continues : ∀ d ∈ word, Terminal.isIdentifierPart d = true) (ends : EndsWord rest) :
      ShortIfPiece (c :: (word ++ rest)) rest
  | blanks {blanks rest : List Char} (nonempty : blanks ≠ [])
      (blank : ∀ d ∈ blanks, d ∈ " \t".toList) : ShortIfPiece (blanks ++ rest) rest
  | single {c : Char} {rest : List Char}
      (plain : Derives pico8.grammar (call "literal_string") (c :: rest) .failed)
      (begins : Terminal.isIdentifierFirst c = false) (inline : c ∉ "\r\n".toList) :
      ShortIfPiece (c :: rest) rest

theorem piece_of_takes (h : Takes pico8.grammar shortIfToken s rest) : ShortIfPiece s rest := by
  rcases takes_choice_cons.mp h with hliteral | ⟨hplain, h⟩
  · exact .literal hliteral
  rcases takes_choice_cons.mp h with ⟨parts, hword⟩ | ⟨hword, h⟩
  · have hanswer := hword.deterministic (.terminal .identifier s)
    cases s with
    | nil => cases hanswer
    | cons c s =>
        rw [Terminal.answer_identifier_cons] at hanswer
        split at hanswer
        · rename_i hfirst
          cases hanswer
          have hsplit := List.takeWhile_append_dropWhile (p := Terminal.isIdentifierPart) (l := s)
          rw [← hsplit] at hplain
          have hpiece := ShortIfPiece.word hplain hfirst
            (fun d hd => List.all_eq_true.mp List.all_takeWhile d hd) (endsWord_dropWhile s)
          rwa [hsplit] at hpiece
        · cases hanswer
  rcases takes_choice_cons.mp h with hblanks | ⟨-, h⟩
  · obtain ⟨blanks, hne, hblank, -, rfl⟩ := takes_inlineSpace.mp hblanks
    exact .blanks hne hblank
  rcases takes_choice_cons.mp h with ⟨parts, hsingle⟩ | ⟨-, h⟩
  · obtain ⟨c, hc, -, rfl⟩ := Match.of_oneOf hsingle.toMatch
    refine .single hplain ?_ (by simpa using hc)
    have hanswer := hword.deterministic (.terminal .identifier (c :: rest))
    rw [Terminal.answer_identifier_cons] at hanswer
    split at hanswer
    · cases hanswer
    · exact Bool.eq_false_iff.mpr ‹_›
  · exact absurd h takes_choice_nil

/-- Where no piece can be taken, nothing is left or the line ends. -/
theorem endsShortIf_of_failed (h : Derives pico8.grammar shortIfToken s .failed) :
    EndsShortIf inWord s := by
  simp only [shortIfToken, failed_choice_cons_iff] at h
  obtain ⟨-, -, -, hsingle, -⟩ := h
  cases s with
  | nil => exact .inl rfl
  | cons c t =>
      refine .inr (.inl ⟨c, t, ?_, rfl⟩)
      have hanswer := hsingle.deterministic (.terminal (.oneOf "\r\n".toList true) (c :: t))
      rw [Terminal.answer_oneOf_cons] at hanswer
      split at hanswer
      · cases hanswer
      · rename_i hlisted
        simpa [Decidable.or_iff_not_imp_left] using hlisted

/-- The pieces end where the short `if` does. -/
theorem endsShortIf_of_failed_round (h : Derives pico8.grammar shortIfRound s .failed)
    (hword : inWord = true → EndsWord s) : EndsShortIf inWord s := by
  rcases h.of_failed_seq with hahead | ⟨_, _, hahead, hothers⟩
  · generalize ha : Answer.failed = a at hahead
    cases hahead with
    | @lookahead _ _ _ a inner =>
        cases a <;> cases ha
        exact endsShortIf_of_takes ⟨_, inner⟩ hword
  · obtain ⟨rfl, -⟩ := takes_lookahead.mp ⟨_, hahead⟩
    rcases hothers.of_failed_seq with htoken | ⟨_, _, -, hnil⟩
    · exact endsShortIf_of_failed htoken
    · cases hnil

/-- Where words have ended, none goes on with a character of a word. -/
theorem inWord_eq_false (hword : inWord = true → EndsWord (c :: s))
    (hc : Terminal.isIdentifierPart c = true) : inWord = false :=
  Bool.eq_false_iff.mpr fun hin => hword hin c rfl (Terminal.isIdentifierPart_iff.mp hc)

theorem wordGoesOn_eq_false (hword : inWord = true → EndsWord (c :: s))
    (hc : Terminal.isIdentifierFirst c = false) : wordGoesOn inWord c = false := by
  cases inWord with
  | false => exact hc
  | true =>
      exact Bool.eq_false_iff.mpr fun hpart =>
        absurd (inWord_eq_false hword hpart).symm Bool.false_ne_true

/-- What a short `if` takes at once is a part of its extent. -/
theorem exists_taken_of_round (h : Takes pico8.grammar shortIfRound s rest)
    (hword : inWord = true → EndsWord s) : ∃ taken goesOn, s = taken ++ rest ∧ taken ≠ [] ∧
      (goesOn = true → EndsWord rest) ∧ ∀ more after, rest = more ++ after →
        ShortIfExtent goesOn more after → ShortIfExtent inWord (taken ++ more) after := by
  obtain ⟨_, hahead, hothers⟩ := takes_seq_cons.mp h
  obtain ⟨rfl, hfree⟩ := takes_lookahead.mp hahead
  obtain ⟨_, htoken, hnil⟩ := takes_seq_cons.mp hothers
  obtain rfl := takes_seq_nil.mp hnil
  cases piece_of_takes htoken with
  | literal hliteral =>
      obtain ⟨parts, hparts⟩ := hliteral
      obtain rfl := hparts.toMatch.text_eq
      refine ⟨Tree.textOfAll parts, false, rfl, ?_, nofun, ?_⟩
      · exact hparts.toMatch.text_ne_nil (recordable pico8).toSound (by decide)
      · rintro more after rfl hmore
        exact .literal ⟨parts, hparts⟩ hmore
  | @word c word _ hplain hbegins hcontinues hends =>
      have hgoesOn : ¬EndsShortIf false _ := not_endsShortIf_of_failed hfree (by
        rintro t heq
        cases heq
        cases hbegins)
      obtain rfl := inWord_eq_false hword (by simp [Terminal.isIdentifierPart, hbegins])
      refine ⟨c :: word, true, rfl, List.cons_ne_nil _ _, fun _ => hends, ?_⟩
      rintro more after rfl hmore
      exact .word hgoesOn hplain hbegins hcontinues hmore
  | blanks hne hblank =>
      refine ⟨_, false, rfl, hne, nofun, ?_⟩
      rintro more after rfl hmore
      exact .of_blanks hblank (.inl hne) hmore
  | @single c _ hplain hbegins hinline =>
      have hgoesOn : ¬EndsShortIf inWord _ := not_endsShortIf_of_failed hfree (by
        rintro t heq
        cases heq
        exact hinline (by decide))
      refine ⟨[c], false, rfl, List.cons_ne_nil _ _, nofun, ?_⟩
      rintro more after rfl hmore
      exact .plain hgoesOn hplain (wordGoesOn_eq_false hword hbegins ▸ hmore)

/-- The pieces that are taken are the extent of a short `if`. -/
theorem exists_extent_of_rounds {site : Site} {parts : List Tree}
    (h : Derives pico8.grammar (.star site shortIfRound) s (.matched parts rest))
    (hword : inWord = true → EndsWord s) :
    ∃ taken, s = taken ++ rest ∧ ShortIfExtent inWord taken rest := by
  generalize hp : Pattern.star site shortIfRound = p at h
  induction h using Derives.matched_induction generalizing inWord with
  | starMore round _ _ ihothers =>
      cases hp
      obtain ⟨taken, goesOn, rfl, -, hnext, hextend⟩ := exists_taken_of_round ⟨_, round⟩ hword
      obtain ⟨more, rfl, hmore⟩ := ihothers hnext rfl
      exact ⟨taken ++ more, (List.append_assoc _ _ _).symm, hextend more _ rfl hmore⟩
  | starStop round =>
      cases hp
      exact ⟨[], rfl, .done (endsShortIf_of_failed_round round hword)⟩
  | _ => cases hp

/-- The blanks that may be taken are all that there are. -/
theorem exists_blanks_of_takes
    (h : Takes pico8.grammar (Pattern.optional [call "inline_space"]) s rest) :
    ∃ blanks, (∀ c ∈ blanks, c ∈ " \t".toList) ∧ StartsOutside " \t".toList rest ∧
      s = blanks ++ rest := by
  obtain ⟨blanks, t, hblanks, ht, rfl⟩ := exists_blanks " \t".toList s
  obtain ⟨parts, hparts⟩ := h
  obtain ⟨others, hothers⟩ := takes_blanks hblanks ht
  cases hparts.deterministic hothers
  exact ⟨blanks, hblanks, ht, rfl⟩

/-- A short `if` up to the end of its condition. -/
def shortIfHead : List Pattern := [key "if", gap, call "bracket_expr"]

/-- What a short `if` has behind its condition. -/
def shortIfTail : List Pattern :=
  [Pattern.optional [call "inline_space"], notAhead [key "then"],
    many1 [notAhead [shortIfEnd], shortIfToken]]

/-- Behind its condition a short `if` takes its extent, which is more than blanks. -/
theorem exists_extent_of_tail (h : Takes pico8.grammar (.seq shortIfTail) s rest) :
    ∃ part, s = part ++ rest ∧ (∃ c ∈ part, c ∉ " \t".toList) ∧ ShortIfExtent false part rest := by
  obtain ⟨_, hblanks, hbody⟩ := takes_seq_cons.mp h
  obtain ⟨blanks, hblank, houtside, rfl⟩ := exists_blanks_of_takes hblanks
  obtain ⟨_, hahead, hpieces⟩ := takes_seq_cons.mp hbody
  obtain ⟨rfl, -⟩ := takes_lookahead.mp hahead
  obtain ⟨_, ⟨parts, hrounds⟩, hnil⟩ := takes_seq_cons.mp hpieces
  obtain rfl := takes_seq_nil.mp hnil
  generalize ha : Answer.matched parts _ = a at hrounds
  cases hrounds with
  | @plusMore _ _ _ _ _ a round others =>
      cases a <;> cases ha
      obtain ⟨taken, goesOn, rfl, hne, hnext, hextend⟩ :=
        @exists_taken_of_round false _ _ ⟨_, round⟩ nofun
      obtain ⟨more, rfl, hmore⟩ := exists_extent_of_rounds others hnext
      have hextent := hextend more _ rfl hmore
      obtain ⟨c, taken, rfl⟩ := List.exists_cons_of_ne_nil hne
      refine ⟨blanks ++ (c :: taken ++ more), by simp, ⟨c, by simp, ?_⟩,
        .of_blanks hblank (.inr rfl) hextent⟩
      exact startsOutside_cons.mp houtside
  | plusStop _ stops =>
      subst ha
      exact absurd trivial stops

end Dialect

/-! ## Edits beside it -/

/-- A sequence in two parts matches one part after the other. -/
theorem Derives.of_seq_append {g : Grammar} {items others : List Pattern} {s rest : List Char}
    {parts : List Tree} (h : Derives g (.seq (items ++ others)) s (.matched parts rest)) :
    ∃ first second middle, parts = first ++ second ∧
      Derives g (.seq items) s (.matched first middle) ∧
        Derives g (.seq others) middle (.matched second rest) := by
  induction items generalizing s parts with
  | nil => exact ⟨[], parts, s, rfl, .seqNil s, h⟩
  | cons item items ih =>
      obtain ⟨taken, middle, more, htaken, hmore, rfl⟩ := h.of_seq_cons
      obtain ⟨first, second, last, rfl, hfirst, hsecond⟩ := ih hmore
      exact ⟨taken ++ first, second, last, (List.append_assoc _ _ _).symm,
        .seqCons htaken hfirst, hsecond⟩

theorem Walk.occurrences_append (w : Walk) (as bs : List Tree) :
    w.occurrences (as ++ bs) = w.occurrences as ++ (w.passAll as).occurrences bs := by
  rw [occurrences, capturesOfAll_append, List.filter_append]
  rfl

/-- Whether a stretch of text begins or ends strictly inside another one. -/
def CutsInto (start stop first last : Int) : Prop :=
  first < start ∧ start < last ∨ first < stop ∧ stop < last

/-- How a short `if` lies in a text: it begins behind `before`, it has `head` up to the end of its
condition, and what comes behind its condition is `part`. -/
structure ShortIfLies (source : Source) (c : Capture) (before head part after : List Char) :
    Prop where
  text_eq : source.chars = before ++ (head ++ (part ++ after))
  start_eq : c.start = before.length
  stop_eq : c.stop = (before ++ (head ++ part)).length
  taken : Takes pico8.grammar (call shortIfStatement.name) (head ++ (part ++ after)) after
  head_taken : Takes pico8.grammar (.seq shortIfHead) (head ++ (part ++ after)) (part ++ after)
  not_blank : ∃ d ∈ part, d ∉ " \t".toList
  extent : ShortIfExtent false part after

namespace Dialect

variable {source : Source} {tree : Tree} {inner first second : List Tree} {v w : Walk}
  {s rest : List Char}

theorem mem_shortIfStatement : shortIfStatement ∈ rules pico8 := by
  simp [rules, blockRules, extension]

theorem isStatement_shortIf : IsStatement shortIfStatement where
  not_phrase := by decide
  not_padding := by decide

/-- The rules that the body of a short `if` leads to. -/
def pieceRules : List String :=
  ["inline_space", "literal_string", "double_quote_string", "single_quote_string", "long_string",
    "character", "escaped"]

/-- Nothing is recorded behind the condition of a short `if`. -/
theorem occurrences_of_tail (hw : w.Anchored)
    (h : Match pico8.grammar (.seq shortIfTail) s second rest) : w.occurrences second = [] := by
  have hcalls : (rules pico8).all (fun rule => !pieceRules.contains rule.name ||
      rule.body.callsWithin pieceRules) = true := by decide
  have hnone : pieceRules.all (fun name => OccurrenceKind.ofName? name == none) = true := by decide
  have hwithin : ∀ rule ∈ pico8.grammar.rules, pieceRules.contains rule.name = true →
      rule.body.callsWithin pieceRules = true := by
    intro rule hrule hname
    have hcall := List.all_eq_true.mp hcalls rule (rules_grammar pico8 ▸ hrule)
    rw [hname] at hcall
    simpa using hcall
  apply Walk.occurrences_eq_nil hw
  intro n hn
  have hname := h.names_within hwithin (by decide) n hn
  exact beq_iff_eq.mp (List.all_eq_true.mp hnone n.1.name (List.contains_iff_mem.mp hname))

/-- A short `if` is made of what it has up to the end of its condition, and of its extent. -/
theorem exists_parts_of_shortIf
    (h : Derives pico8.grammar shortIfStatement.body s (.matched inner rest)) :
    ∃ first second, inner = first ++ second ∧
      Takes pico8.grammar (.seq shortIfHead) s (Tree.textOfAll second ++ rest) ∧
      Match pico8.grammar (.seq shortIfTail) (Tree.textOfAll second ++ rest) second rest ∧
      (∃ c ∈ Tree.textOfAll second, c ∉ " \t".toList) ∧
      ShortIfExtent false (Tree.textOfAll second) rest := by
  have hparts : Derives pico8.grammar (.seq (shortIfHead ++ shortIfTail)) s
      (.matched inner rest) := h
  obtain ⟨first, second, middle, rfl, hhead, htail⟩ := hparts.of_seq_append
  obtain rfl := htail.toMatch.text_eq
  obtain ⟨part, hpart, hblank, hextent⟩ := exists_extent_of_tail ⟨second, htail⟩
  obtain rfl := List.append_cancel_right hpart
  exact ⟨first, second, rfl, ⟨first, hhead⟩, htail.toMatch, hblank, hextent⟩

/-- What is recorded in a short `if`, but for itself, ends with its condition or before. -/
theorem tokenEnd_le_of_shortIf (hv : v.Plain)
    (htail : Match pico8.grammar (.seq shortIfTail) s second rest) {d : Capture}
    (hd : d ∈ v.occurrences [.node shortIfStatement (first ++ second)])
    (hne : d.rule ≠ OccurrenceKind.shortIf.name) :
    d.tokenEnd ≤ ((v.offset + (Tree.textOfAll first).length : Nat) : Int) := by
  have henter : (v.enter shortIfStatement).Plain := hv.enter rfl rfl
  rw [Walk.occurrences_node hv.quiet, Walk.occurrences_append,
    occurrences_of_tail (henter.anchored.passAll first) htail, List.append_nil] at hd
  rcases List.mem_append.mp hd with hd | hd
  · have hend := Walk.tokenEnd_le_of_mem_capturesOfAll henter.anchored (List.mem_filter.mp hd).1
    rwa [Walk.offset_passAll] at hend
  · obtain rfl := List.mem_singleton.mp (List.mem_filter.mp hd).1
    exact absurd rfl hne

/-- An occurrence of a text ends behind where its rule begins. -/
theorem ruleStart_le_of_mem_occurrences
    (h : Match pico8.grammar (.rule rootName) source.chars [tree] []) {d : Capture}
    (hd : d ∈ Walk.initial.occurrences [tree]) : d.ruleStart ≤ d.tokenEnd := by
  have hnested := nested_of_whole h
  have hsize := hnested.sizes d hd
  obtain ⟨n, hn, _, _, -, hshows⟩ :=
    Walk.node_of_mem_capturesOfAll anchored_initial [tree] d (List.mem_filter.mp hd).1
  cases hanchored : n.1.anchored with
  | false =>
      have hstart := hshows.start_eq hanchored
      omega
  | true =>
      have hname := anchored_of_mem (h.derived n hn).1 hanchored
      have hoperator := hnested.operators d hd (hshows.rule_eq.trans hname)
      omega

/-- A captured short `if` takes its extent, and no other occurrence cuts into that. -/
theorem lies_of_mem_captures
    (h : Derives pico8.grammar (.rule rootName) source.chars (.matched [tree] [])) {c : Capture}
    (hc : c ∈ Walk.initial.captures tree) (hname : c.rule = OccurrenceKind.shortIf.name) :
    ∃ before head part after, ShortIfLies source c before head part after ∧
      ∀ d ∈ Walk.initial.occurrences [tree], d.rule ≠ OccurrenceKind.shortIf.name →
        ¬CutsInto d.start d.tokenEnd (before ++ head).length c.stop := by
  obtain ⟨rule, inner, v, hmeets, rfl⟩ := Walk.meets_of_mem_captures tree c hc
  obtain rfl : rule = shortIfStatement :=
    eq_of_name_eq (h.toMatch.derived _ hmeets.mem_nodes).1 mem_shortIfStatement hname
  obtain ⟨before, after, hsplit, hoffset, hbody⟩ := h.of_meets hmeets
  obtain ⟨first, second, rfl, hhead, htail, hblank, hextent⟩ := exists_parts_of_shortIf hbody
  have hbegin : v.offset = before.length := by simpa [Walk.initial] using hoffset
  have hplain := hmeets.plain plain_initial isStatement_shortIf h.toMatch.derived
  rw [Tree.textOfAll_append, List.append_assoc] at hsplit hbody hhead
  have hend : ((v.pass (.node shortIfStatement (first ++ second))).capture shortIfStatement
      v.offset).stop = (before ++ (Tree.textOfAll first ++ Tree.textOfAll second)).length := by
    rw [Walk.stop_capture, Walk.offset_pass, Tree.text, Tree.textOfAll_append, hbegin]
    simp only [List.length_append]
  refine ⟨before, Tree.textOfAll first, Tree.textOfAll second, after, ?_, fun d hd hne => ?_⟩
  · exact
      { text_eq := hsplit
        start_eq := congrArg Int.ofNat hbegin
        stop_eq := hend
        taken := (takes_call mem_shortIfStatement).mpr ⟨_, hbody⟩
        head_taken := hhead
        not_blank := hblank
        extent := hextent }
  have hsize := ((nested_of_whole h.toMatch).sizes d hd).1
  rw [hend]
  simp only [CutsInto, List.length_append]
  rcases hmeets.clears plain_initial isStatement_shortIf h.toMatch.derived
    (fun d hd => ruleStart_le_of_mem_occurrences h.toMatch hd) hd hne with hinside | hclears
  · have hlast := tokenEnd_le_of_shortIf hplain htail hinside hne
    omega
  · rw [Capture.Clears, Walk.offset_pass, Tree.text, Tree.textOfAll_append, hbegin,
      List.length_append] at hclears
    omega

/-- Every edit of a plan replaces an occurrence that is written otherwise in plain Lua. -/
theorem covers_of_plan {limit : Int} {parsed : Parsed}
    (h : ((pico8.parser limit).record source).1 = .ok parsed) {kinds : List OccurrenceKind}
    (hkinds : kinds.Nodup) {edits : List Edit}
    (hplan : Desugar.plan source (((pico8.parser limit).record source).2.occurrences kinds) =
      .ok edits) {edit : Edit} (hedit : edit ∈ edits) :
    ∃ o ∈ ((pico8.parser limit).record source).2.occurrences kinds, Desugar.isSugar o = true ∧
      edit.start = o.offset ∧ edit.stop = o.stop := by
  have hready := ready_of_record h hkinds
  obtain ⟨-, -, hedits⟩ := Except.bind_eq_ok hplan
  have hpreserves := Desugar.preserves_edits _ (Nat.le_of_eq (length_sortBy _ _)) hready hedits
    (Int.le_refl 0) (Int.natCast_nonneg source.text.size) fun o ho =>
      ⟨(hready.fits o ho).2.placed.offset_nonneg, (hready.fits o ho).2.placed.stop_le⟩
  obtain ⟨o, ho, hcovers⟩ := hpreserves.covers edit hedit
  obtain ⟨hmem, hsugar⟩ := List.mem_filter.mp (mem_sortBy.mp ho)
  exact ⟨o, hmem, hsugar, hcovers⟩

end Dialect

/-- In an accepted text every short `if` has a part behind its condition that is more than blanks.
Outside its string literals this part has no line break, no two dashes and no keyword `end`, and it
goes on up to the first of these or to the end of the text.  No occurrence that is written otherwise
in plain Lua begins or ends strictly inside it, and so no edit does. -/
theorem short_if_reaches_its_end {limit : Int} {source : Source} {parsed : Parsed}
    (h : ((pico8.parser limit).record source).1 = .ok parsed) {kinds : List OccurrenceKind}
    (hkinds : kinds.Nodup) :
    ∃ tree edits, Derives pico8.grammar (.rule rootName) source.chars (.matched [tree] []) ∧
      ((pico8.parser limit).record source).2.Confirms source tree ∧
      Desugar.plan source (((pico8.parser limit).record source).2.occurrences kinds) = .ok edits ∧
      ∀ c ∈ Walk.initial.captures tree, c.rule = OccurrenceKind.shortIf.name →
        ∃ before head part after, ShortIfLies source c before head part after ∧
          (∀ o ∈ ((pico8.parser limit).record source).2.occurrences [], Desugar.isSugar o = true →
            ¬CutsInto o.offset o.stop (before ++ head).length c.stop) ∧
          ∀ edit ∈ edits, ¬CutsInto edit.start edit.stop (before ++ head).length c.stop := by
  obtain ⟨tree, htree, hagrees⟩ := derives_of_record h
  have hconfirms := confirms_of_agrees htree.toMatch hagrees
  obtain ⟨edits, hplan⟩ := plan_of_record h hkinds
  refine ⟨tree, edits, htree, hconfirms, hplan, fun c hc hname => ?_⟩
  obtain ⟨before, head, part, after, hlies, hcuts⟩ := lies_of_mem_captures htree hc hname
  have hsugar : ∀ {kinds : List OccurrenceKind},
      ∀ o ∈ ((pico8.parser limit).record source).2.occurrences kinds, Desugar.isSugar o = true →
        ¬CutsInto o.offset o.stop (before ++ head).length c.stop := by
    intro kinds o ho hsugar
    obtain ⟨d, hd, hrule, heq⟩ := capture_of_mem_occurrences hconfirms ho
    have hne : d.rule ≠ OccurrenceKind.shortIf.name := by
      rw [hrule]
      cases hkind : o.kind with
      | shortIf => simp [Desugar.isSugar, hkind] at hsugar
      | _ => decide
    rw [heq, stop_occurrence]
    exact hcuts d hd hne
  refine ⟨before, head, part, after, hlies, hsugar, fun edit hedit => ?_⟩
  obtain ⟨o, ho, hkind, hstart, hstop⟩ := covers_of_plan h hkinds hplan hedit
  rw [hstart, hstop]
  exact hsugar o ho hkind

/-- The word `send` ends no short `if`, and neither do the dashes in a string.  The keyword behind
them does. -/
theorem short_if_reaches_its_end_send :
    ∃ parsed tree edits,
      ((pico8.parser 0).record (.ofString "do if(a!=b)send\"--\"end" "cart")).1 = .ok parsed ∧
      (((pico8.parser 0).record (.ofString "do if(a!=b)send\"--\"end" "cart")).2.log
        .shortIf).toList.map Occurrence.stop = [19] ∧
      Derives pico8.grammar (.rule rootName)
        (Source.ofString "do if(a!=b)send\"--\"end" "cart").chars (.matched [tree] []) ∧
      ((pico8.parser 0).record (.ofString "do if(a!=b)send\"--\"end" "cart")).2.Confirms
        (.ofString "do if(a!=b)send\"--\"end" "cart") tree ∧
      Desugar.plan (.ofString "do if(a!=b)send\"--\"end" "cart")
        (((pico8.parser 0).record (.ofString "do if(a!=b)send\"--\"end" "cart")).2.occurrences
          []) = .ok edits ∧
      ∀ c ∈ Walk.initial.captures tree, c.rule = OccurrenceKind.shortIf.name →
        ∃ before head part after,
          ShortIfLies (.ofString "do if(a!=b)send\"--\"end" "cart") c before head part after ∧
            ∀ edit ∈ edits, ¬CutsInto edit.start edit.stop (before ++ head).length c.stop := by
  obtain ⟨⟨parsed, hparsed⟩, hstop⟩ :
      (∃ parsed, ((pico8.parser 0).record
        (.ofString "do if(a!=b)send\"--\"end" "cart")).1 = .ok parsed) ∧
      (((pico8.parser 0).record (.ofString "do if(a!=b)send\"--\"end" "cart")).2.log
        .shortIf).toList.map Occurrence.stop = [19] := by
    rw [exists_record_eq_ok_iff, recorder_record, recording_eq]
    decide +kernel
  obtain ⟨tree, edits, htree, hconfirms, hplan, hshown⟩ :=
    short_if_reaches_its_end hparsed List.nodup_nil
  refine ⟨parsed, tree, edits, hparsed, hstop, htree, hconfirms, hplan, fun c hc hname => ?_⟩
  obtain ⟨before, head, part, after, hlies, -, hedits⟩ := hshown c hc hname
  exact ⟨before, head, part, after, hlies, hedits⟩

end CartLua
