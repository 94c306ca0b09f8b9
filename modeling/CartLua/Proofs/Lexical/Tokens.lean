import Mathlib.Data.List.TakeWhile
import Mathlib.Data.Nat.Find
import CartLua.Proofs.Lexical.Numerals
import CartLua.Proofs.Lexical.StringLiterals

/-!
# The tokens of a text

A text is read as tokens with the lexical rules of a grammar: padding is passed over, and then the
longest beginning that is a token is taken.

Two texts may be alike but for their layout.  Then they have the same tokens, because a token never
reaches into a place where the layout may differ: blanks, quotes, comments and long brackets end
every token that has begun before them.
-/

namespace CartLua

open Dialect Terminal

/-! ## Tokens -/

/-- What is kept of a token: its text, but of a string literal only that it is one. -/
inductive TokenShape
  | string
  | spelled (text : List Char)
  deriving DecidableEq, Repr

namespace Dialect

/-- The operators of several characters. -/
def longOperators (dialect : Dialect) : List String :=
  ["...", "..", "==", "~=", "<=", ">=", "<<", ">>", "//", "::"] ++
    dialect.extension ("!=" :: reassignmentOperators)

/-- Whether a text is a token: what a lexical rule matches whole, an operator, or any single
character. -/
inductive IsToken (dialect : Dialect) : TokenShape → List Char → Prop
  | string {text : List Char}
      (whole : Takes dialect.grammar (.call "literal_string") text []) :
      IsToken dialect .string text
  | word {text : List Char}
      (whole : Takes dialect.grammar (.choice [.call "keyword", .call "name"]) text []) :
      IsToken dialect (.spelled text) text
  | numeral {text : List Char} (whole : Takes dialect.grammar (.call "numeral") text []) :
      IsToken dialect (.spelled text) text
  | operator {operator : String} (mem : operator ∈ dialect.longOperators) :
      IsToken dialect (.spelled operator.toList) operator.toList
  | other (c : Char) : IsToken dialect (.spelled [c]) [c]

/-- Whether a text is a token of some shape. -/
def IsAnyToken (dialect : Dialect) (text : List Char) : Prop := ∃ shape, dialect.IsToken shape text

/-- Whether a text is read as tokens of these shapes. -/
inductive Lexes (dialect : Dialect) : List Char → List TokenShape → Prop
  | done {s : List Char} (padding : Takes dialect.grammar gap s []) : Lexes dialect s []
  | token {s text rest : List Char} {shape : TokenShape} {shapes : List TokenShape}
      (padding : Takes dialect.grammar gap s (text ++ rest)) (nonempty : text ≠ [])
      (longest : LongestPrefix dialect.IsAnyToken text (text ++ rest))
      (shaped : dialect.IsToken shape text) (others : Lexes dialect rest shapes) :
      Lexes dialect s (shape :: shapes)

end Dialect

/-- A prefix of a kind that a text has can be made the longest one of its kind. -/
theorem exists_longestPrefix {P : List Char → Prop} {text s : List Char} (h : P text)
    (hbegin : text <+: s) :
      ∃ longest, LongestPrefix P longest s ∧ text.length ≤ longest.length := by
  classical
  have hlength : ∀ {other : List Char}, P other → other <+: s →
      other.length ≤ s.length ∧ P (s.take other.length) := fun hother hs =>
    ⟨hs.length_le, by rwa [← List.prefix_iff_eq_take.mp hs]⟩
  obtain ⟨hle, htake⟩ := hlength h hbegin
  have hbound := Nat.findGreatest_le (P := fun n => P (s.take n)) s.length
  refine ⟨s.take (Nat.findGreatest (fun n => P (s.take n)) s.length),
    ⟨Nat.findGreatest_spec (P := fun n => P (s.take n)) hle htake, List.take_prefix _ s, ?_⟩, ?_⟩
  · intro other hother hs
    obtain ⟨hle, htake⟩ := hlength hother hs
    rw [List.length_take, Nat.min_eq_left hbound]
    exact Nat.le_findGreatest hle htake
  · rw [List.length_take, Nat.min_eq_left hbound]
    exact Nat.le_findGreatest hle htake

/-- The longest prefix of a kind is one prefix. -/
theorem LongestPrefix.eq {P : List Char → Prop} {text other s : List Char}
    (h : LongestPrefix P text s) (hother : LongestPrefix P other s) : text = other := by
  have hle := h.longest other hother.holds hother.isPrefix
  have hge := hother.longest text h.holds h.isPrefix
  rw [List.prefix_iff_eq_take.mp h.isPrefix, List.prefix_iff_eq_take.mp hother.isPrefix]
  congr 1
  omega

/-! ## Where tokens end -/

/-- The characters that stand in no token but a string. -/
def breakCharacters : List Char := '"' :: '\'' :: spaces.toList

/-- Whether a text ends, or begins with a blank, a quote, a comment or a long bracket. -/
def AtBreak (s : List Char) : Prop :=
  s = [] ∨ (∃ c ∈ s.head?, c ∈ breakCharacters) ∨ ['-', '-'] <+: s ∨
    ∃ level, openingBracket level <+: s

/-- Whether no break begins inside a text. -/
def Joined : List Char → Prop
  | [] => True
  | c :: text => (c ∉ '[' :: breakCharacters ∧ (c = '-' → ∃ d ∈ text.head?, d ≠ '-')) ∧ Joined text

instance decidableJoined : (text : List Char) → Decidable (Joined text)
  | [] => inferInstanceAs (Decidable True)
  | c :: text =>
      have := decidableJoined text
      have : Decidable (∃ d ∈ text.head?, d ≠ '-') := Option.decidableExistsMem _
      inferInstanceAs (Decidable
        ((c ∉ '[' :: breakCharacters ∧ (c = '-' → ∃ d ∈ text.head?, d ≠ '-')) ∧ Joined text))

namespace Joined

variable {text more s : List Char}

theorem of_forall (h : ∀ c ∈ text, c ∉ '-' :: '[' :: breakCharacters) : Joined text := by
  induction text with
  | nil => trivial
  | cons c text ih =>
      obtain ⟨hc, htext⟩ := List.forall_mem_cons.mp h
      rw [List.mem_cons, not_or] at hc
      exact ⟨⟨hc.2, fun hdash => absurd hdash hc.1⟩, ih htext⟩

theorem append_left (h : ∀ c ∈ text, c ∉ '-' :: '[' :: breakCharacters) (hmore : Joined more) :
    Joined (text ++ more) := by
  induction text with
  | nil => exact hmore
  | cons c text ih =>
      obtain ⟨hc, htext⟩ := List.forall_mem_cons.mp h
      rw [List.mem_cons, not_or] at hc
      exact ⟨⟨hc.2, fun hdash => absurd hdash hc.1⟩, ih htext⟩

theorem of_append (h : Joined (text ++ more)) : Joined more := by
  induction text with
  | nil => exact h
  | cons c text ih => exact ih h.2

theorem not_atBreak (h : Joined text) (htext : text ≠ []) : ¬AtBreak (text ++ s) := by
  cases text with
  | nil => exact absurd rfl htext
  | cons c text =>
      obtain ⟨⟨hc, hdash⟩, -⟩ := h
      rw [List.mem_cons, not_or] at hc
      rintro (hnil | ⟨d, hd, hmem⟩ | ⟨t, ht⟩ | ⟨level, t, ht⟩)
      · cases hnil
      · cases hd
        exact hc.2 hmem
      · obtain ⟨hfirst, hothers⟩ := List.cons.inj ht
        obtain ⟨d, hd, hne⟩ := hdash hfirst.symm
        obtain ⟨more, rfl⟩ := List.head?_eq_some_iff.mp hd
        exact hne (List.cons.inj hothers).1.symm
      · rw [openingBracket_append] at ht
        exact hc.1 (List.cons.inj ht).1.symm

end Joined

namespace Numeral

variable {radix : Radix} {text : List Char}

/-- The digits and the marks of a radix are no breaks. -/
def Radix.Unbroken (radix : Radix) : Prop :=
  ∀ c ∈ '.' :: (radix.digits.toList ++ radix.marks.toList), c ∉ '-' :: '[' :: breakCharacters

theorem ten_unbroken : ten.Unbroken := forall_mem_of_all (by decide)

theorem sixteen_unbroken : sixteen.Unbroken := forall_mem_of_all (by decide)

theorem Exponent.joined (hradix : radix.Unbroken) (h : Exponent radix text) : Joined text := by
  obtain @⟨mark, sign, number, mark_mem, hsign, nonempty, all⟩ := h
  have hnumber : ∀ c ∈ number, c ∉ '-' :: '[' :: breakCharacters := fun c hc =>
    ten_unbroken c (by simp [ten, all c hc])
  have hmark := hradix mark (by simp [mark_mem])
  have hsigned : Joined (sign ++ number) := by
    rcases hsign with rfl | ⟨c, hc, rfl⟩
    · exact .of_forall hnumber
    · obtain ⟨d, more, rfl⟩ := List.exists_cons_of_ne_nil nonempty
      have hd := hnumber d List.mem_cons_self
      rw [List.mem_cons, not_or] at hd
      have hclear : ∀ c ∈ "+-".toList, c ∉ '[' :: breakCharacters := forall_mem_of_all (by decide)
      exact ⟨⟨hclear c hc, fun _ => ⟨d, rfl, hd.1⟩⟩, .of_forall hnumber⟩
  have hmarked : ∀ c ∈ [mark], c ∉ '-' :: '[' :: breakCharacters :=
    List.forall_mem_singleton.mpr hmark
  exact .append_left hmarked hsigned

theorem Plain.joined (hradix : radix.Unbroken) (h : Plain radix text) : Joined text := by
  have hmantissa :
      ∀ {m : List Char}, Mantissa radix m → ∀ c ∈ m, c ∉ '-' :: '[' :: breakCharacters := by
    intro m hm c hc
    rcases List.mem_cons.mp (hm.mem c hc) with rfl | hdigit
    · exact hradix '.' List.mem_cons_self
    · exact hradix c (by simp [hdigit])
  cases h with
  | mantissa h => exact .of_forall (hmantissa h)
  | scaled h scale => exact .append_left (hmantissa h) (scale.joined hradix)

end Numeral

theorem IsNumeral.joined {text : List Char} (h : IsNumeral text) : Joined text := by
  cases h with
  | decimal h => exact h.joined Numeral.ten_unbroken
  | @hexadecimal x cs mark h =>
      have hmark : ∀ c ∈ '0' :: Numeral.hexLetters, c ∉ '-' :: '[' :: breakCharacters :=
        forall_mem_of_all (by decide)
      have hx := hmark x (List.mem_cons_of_mem _ mark)
      have hboth : ∀ c ∈ ['0', x], c ∉ '-' :: '[' :: breakCharacters :=
        List.forall_mem_cons.mpr ⟨hmark '0' List.mem_cons_self, List.forall_mem_singleton.mpr hx⟩
      exact .append_left hboth (h.joined Numeral.sixteen_unbroken)

namespace Dialect

variable {dialect : Dialect} {shape : TokenShape} {text s t rest : List Char}

/-- What the rule of numerals takes is one. -/
theorem isNumeral_of_takes (h : Takes dialect.grammar (.call "numeral") s rest) :
    ∃ text, IsNumeral text ∧ s = text ++ rest := by
  obtain ⟨parts, h⟩ := h
  have hbegins : Numeral.Begins s := by
    by_contra hnone
    cases h.deterministic (Numeral.failed_numeral hnone)
  have hformed : ¬Numeral.Malformed s := fun hmalformed => by
    cases h.deterministic (Numeral.broken_numeral hmalformed)
  obtain ⟨taken, t, rfl, hlongest, others, hothers⟩ :=
    @Numeral.takes_numeral dialect _ hbegins hformed
  cases h.deterministic hothers
  exact ⟨taken, hlongest.holds, rfl⟩

/-- An identifier is made of the characters for names. -/
theorem mem_of_identifier {g : Grammar} {parts : List Tree}
    (h : Derives g (.terminal .identifier) s (.matched parts rest)) :
    ∃ word, parts = [.chars word] ∧ ∀ c ∈ word, c ∈ nameCharacters.toList := by
  have hanswer := h.deterministic (.terminal .identifier s)
  cases s with
  | nil => cases hanswer
  | cons c t =>
      rw [answer_identifier_cons] at hanswer
      split at hanswer
      · rename_i hfirst
        obtain ⟨rfl, -⟩ := Answer.matched.inj hanswer
        refine ⟨_, rfl, List.forall_mem_cons.mpr ⟨isIdentifierPart_iff.mp ?_, fun d hd => ?_⟩⟩
        · rw [isIdentifierPart, hfirst, Bool.true_or]
        · exact isIdentifierPart_iff.mp (List.all_eq_true.mp List.all_takeWhile d hd)
      · cases hanswer

/-- Keywords and names are made of the characters for names. -/
theorem mem_of_takes_word
    (h : Takes dialect.grammar (.choice [.call "keyword", .call "name"]) text []) :
    ∀ c ∈ text, c ∈ nameCharacters.toList := by
  have hkeyword : keyword ∈ dialect.rules := by simp [rules, lexicalRules]
  have hname : nameRule ∈ dialect.rules := by simp [rules, lexicalRules]
  simp only [takes_choice_cons, takes_choice_nil, and_false, or_false] at h
  rcases h with h | ⟨-, h⟩
  · obtain ⟨_, h⟩ := (takes_call hkeyword).mp h
    obtain ⟨_, _, _, hfound, hothers, -⟩ := h.of_seq_cons
    obtain ⟨before, word, after, hwords, hsplit, -⟩ := hfound.of_choice_texts
    obtain ⟨_, _, _, hend, hnil, -⟩ := hothers.of_seq_cons
    obtain ⟨rfl, -⟩ := of_wordEnd hend
    obtain ⟨-, rfl⟩ := Match.seq_nil_iff.mp hnil.toMatch
    have hword : word ∈ sortLongestFirst keywords := by simp [hwords]
    rw [hsplit, List.append_nil]
    exact mem_nameCharacters (mem_sortBy.mp hword)
  · obtain ⟨_, h⟩ := (takes_call hname).mp h
    obtain ⟨_, _, _, hahead, hothers, -⟩ := h.of_seq_cons
    obtain ⟨-, rfl⟩ := Match.lookahead_iff.mp hahead.toMatch
    obtain ⟨_, _, _, hidentifier, hnil, -⟩ := hothers.of_seq_cons
    obtain ⟨-, rfl⟩ := Match.seq_nil_iff.mp hnil.toMatch
    obtain ⟨word, rfl, hword⟩ := mem_of_identifier hidentifier
    rw [hidentifier.toMatch.text_eq]
    simpa [Tree.textOfAll, Tree.text] using hword

/-- No break begins in a token other than a string, unless the token is that character. -/
theorem IsToken.joined (h : dialect.IsToken (.spelled s) text) :
    s = text ∧ (Joined text ∨ ∃ c, text = [c]) := by
  generalize hshape : TokenShape.spelled s = shape at h
  cases h with
  | string _ => cases hshape
  | word whole =>
      have hclear : ∀ c ∈ nameCharacters.toList, c ∉ '-' :: '[' :: breakCharacters :=
        forall_mem_of_all (by decide)
      have hmem := mem_of_takes_word whole
      exact ⟨TokenShape.spelled.inj hshape, .inl (.of_forall fun c hc => hclear c (hmem c hc))⟩
  | numeral whole =>
      obtain ⟨number, hnumeral, rfl⟩ := isNumeral_of_takes whole
      rw [List.append_nil] at hshape ⊢
      exact ⟨TokenShape.spelled.inj hshape, .inl hnumeral.joined⟩
  | @operator operator mem =>
      have hjoined : ∀ operator ∈ pico8.longOperators, Joined operator.toList :=
        forall_mem_of_all (by decide)
      have hmem : operator ∈ pico8.longOperators := by
        cases dialect with
        | pico8 => exact mem
        | canonical => exact List.mem_append_left _ (by simpa [longOperators, extension] using mem)
      exact ⟨TokenShape.spelled.inj hshape, .inl (hjoined operator hmem)⟩
  | other c => exact ⟨TokenShape.spelled.inj hshape, .inr ⟨c, rfl⟩⟩

theorem IsToken.isLiteral (h : dialect.IsToken .string text) : IsLiteral text := by
  cases h with
  | string whole =>
      obtain ⟨literal, hliteral, rfl⟩ := takes_literalString.mp whole
      rwa [List.append_nil]

theorem isToken_string (h : IsLiteral text) : dialect.IsToken .string text :=
  .string (takes_literalString.mpr ⟨text, h, (List.append_nil text).symm⟩)

/-- A string literal begins with a break. -/
theorem atBreak_of_isLiteral (h : IsLiteral text) (s : List Char) : AtBreak (text ++ s) := by
  rcases h.begins with ⟨c, hc, hquote⟩ | ⟨level, hopens⟩
  · obtain ⟨more, rfl⟩ := List.head?_eq_some_iff.mp hc
    exact .inr (.inl ⟨c, rfl, by rcases hquote with rfl | rfl <;> decide⟩)
  · exact .inr (.inr (.inr ⟨level, hopens.trans (List.prefix_append text s)⟩))

/-- A text is a token of one shape. -/
theorem IsToken.shape_eq {other : TokenShape} (h : dialect.IsToken shape text)
    (hother : dialect.IsToken other text) : shape = other := by
  have hapart :
      ∀ {s : List Char}, dialect.IsToken .string text → ¬dialect.IsToken (.spelled s) text := by
    intro s hstring hspelled
    rcases hspelled.joined.2 with hjoined | ⟨c, rfl⟩
    · have hnonempty : text ≠ [] := List.ne_nil_of_length_pos
        (Nat.lt_of_succ_lt hstring.isLiteral.one_lt_length)
      exact hjoined.not_atBreak hnonempty (atBreak_of_isLiteral hstring.isLiteral [])
    · exact absurd hstring.isLiteral.one_lt_length (by simp)
  cases shape with
  | string =>
      cases other with
      | string => rfl
      | spelled s => exact absurd hother (hapart h)
  | spelled s =>
      cases other with
      | string => exact absurd h (hapart hother)
      | spelled s' => rw [h.joined.1, hother.joined.1]

/-- A text is read in one way. -/
theorem Lexes.unique {shapes others : List TokenShape} (h : dialect.Lexes s shapes)
    (hothers : dialect.Lexes s others) : shapes = others := by
  have hpadding :
      ∀ {s t u : List Char}, Takes dialect.grammar gap s t → Takes dialect.grammar gap s u →
      t = u := by
    rintro s t u ⟨_, ht⟩ ⟨_, hu⟩
    cases ht.deterministic hu
    rfl
  induction h generalizing others with
  | done padding =>
      cases hothers with
      | done _ => rfl
      | token padding' nonempty _ _ _ =>
          exact absurd (List.append_eq_nil_iff.mp (hpadding padding padding').symm).1 nonempty
  | token padding nonempty longest shaped _ ih =>
      cases hothers with
      | done padding' =>
          exact absurd (List.append_eq_nil_iff.mp (hpadding padding padding')).1 nonempty
      | token padding' nonempty' longest' shaped' others' =>
          have heq := hpadding padding padding'
          rw [← heq] at longest'
          obtain rfl := longest.eq longest'
          obtain rfl := List.append_cancel_left heq
          rw [shaped.shape_eq shaped', ih others']

end Dialect

/-! ## Texts that differ in layout -/

/-- Whether two texts differ in what stands between their tokens and in what their strings say. -/
inductive Alike : List Char → List Char → Prop
  | nil : Alike [] []
  | char {c : Char} {s t : List Char} (left : ¬AtBreak (c :: s)) (right : ¬AtBreak (c :: t))
      (others : Alike s t) : Alike (c :: s) (c :: t)
  | padding {first second s t : List Char} (left : Separator first s) (right : Separator second t)
      (others : Alike s t) : Alike (first ++ s) (second ++ t)
  | string {first second s t : List Char} (left : IsLiteral first) (right : IsLiteral second)
      (others : Alike s t) : Alike (first ++ s) (second ++ t)

/-- A separator begins with a break. -/
theorem Separator.atBreak {text rest : List Char} (h : Separator text rest) :
    AtBreak (text ++ rest) := by
  cases h with
  | @blank c _ mem =>
      exact .inr (.inl ⟨c, rfl, List.mem_cons_of_mem _ (List.mem_cons_of_mem _ mem)⟩)
  | comment h =>
      obtain ⟨t, rfl⟩ := h.exists_eq
      exact .inr (.inr (.inl ⟨t ++ rest, rfl⟩))

/-- Padding ends before what is no break. -/
theorem failed_sep_of_not_atBreak {dialect : Dialect} {s : List Char} (h : ¬AtBreak s) :
    Derives dialect.grammar (.call "sep") s .failed := by
  have hcomment : comment ∈ dialect.rules := by simp [rules, lexicalRules]
  simp only [AtBreak, not_or] at h
  obtain ⟨hnonempty, hbreak, hdashes, -⟩ := h
  have houtside : StartsOutside spaces.toList s := fun c hc hmem =>
    hbreak ⟨c, hc, List.mem_cons_of_mem _ (List.mem_cons_of_mem _ hmem)⟩
  exact failed_call mem_sep (failed_choice_cons_iff.mpr ⟨failed_oneOf_iff.mpr houtside,
    failed_choice_cons_iff.mpr ⟨failed_call hcomment (.seqStop (failed_literal_iff.mpr hdashes) id),
      .choiceNil s⟩⟩)

/-- Padding ends before a string literal. -/
theorem failed_sep_of_isLiteral {dialect : Dialect} {text : List Char} (h : IsLiteral text)
    (rest : List Char) : Derives dialect.grammar (.call "sep") (text ++ rest) .failed := by
  rcases h.begins with ⟨c, hc, hquote⟩ | ⟨level, after, rfl⟩
  · obtain ⟨more, rfl⟩ := List.head?_eq_some_iff.mp hc
    rcases hquote with rfl | rfl <;> exact failed_sep (by decide) (by decide)
  · rw [List.append_assoc, openingBracket_append]
    exact failed_sep (by decide) (by decide)

namespace Alike

variable {s t : List Char}

/-- Alike texts have a common beginning, up to a break in both of them. -/
theorem exists_run (h : Alike s t) : ∃ run s' t', s = run ++ s' ∧ t = run ++ t' ∧ AtBreak s' ∧
    AtBreak t' ∧ ∀ front back, run = front ++ back → Alike (back ++ s') (back ++ t') := by
  have hnone : ∀ {s t : List Char}, Alike s t → AtBreak s → AtBreak t → ∃ run s' t', s = run ++ s' ∧
      t = run ++ t' ∧ AtBreak s' ∧ AtBreak t' ∧
        ∀ front back, run = front ++ back → Alike (back ++ s') (back ++ t') := by
    intro s t h hs ht
    refine ⟨[], s, t, rfl, rfl, hs, ht, fun front back hnil => ?_⟩
    obtain ⟨-, rfl⟩ := List.append_eq_nil_iff.mp hnil.symm
    exact h
  induction h with
  | nil => exact hnone .nil (.inl rfl) (.inl rfl)
  | @char c s t left right others ih =>
      obtain ⟨run, s', t', rfl, rfl, hs, ht, hparts⟩ := ih
      refine ⟨c :: run, s', t', rfl, rfl, hs, ht, fun front back hsplit => ?_⟩
      cases front with
      | nil =>
          obtain rfl : c :: run = back := hsplit
          exact .char left right others
      | cons d front => exact hparts front back (List.cons.inj hsplit).2
  | padding left right others _ =>
      exact hnone (.padding left right others) left.atBreak right.atBreak
  | string left right others _ =>
      exact hnone (.string left right others) (atBreak_of_isLiteral left _)
        (atBreak_of_isLiteral right _)

/-! ## Reading both texts at once -/

section

variable {dialect : Dialect} {run text : List Char}

/-- A token that begins before a break does not reach it. -/
theorem prefix_of_isAnyToken (hbegins : ¬AtBreak (run ++ s)) (hs : AtBreak s)
    (h : dialect.IsAnyToken text) (htaken : text <+: run ++ s) : text <+: run := by
  obtain ⟨shape, hshape⟩ := h
  rcases List.prefix_or_prefix_of_prefix htaken (List.prefix_append run s) with
    hwithin | ⟨more, rfl⟩
  · exact hwithin
  obtain ⟨after, hafter⟩ := (List.prefix_append_right_inj run).mp htaken
  cases shape with
  | string =>
      obtain ⟨after, hsplit⟩ := htaken
      exact absurd (hsplit ▸ atBreak_of_isLiteral hshape.isLiteral after) hbegins
  | spelled spelling =>
      have hnone : more = [] := by
        by_contra hmore
        rcases hshape.joined.2 with hjoined | ⟨c, hsingle⟩
        · exact hjoined.of_append.not_atBreak hmore (hafter ▸ hs)
        · have hrun : run ≠ [] := by
            rintro rfl
            exact hbegins hs
          have hlength := congrArg List.length hsingle
          have hpos := List.length_pos_iff.mpr hrun
          have hpos' := List.length_pos_iff.mpr hmore
          simp only [List.length_append, List.length_singleton] at hlength
          omega
      exact ⟨[], by rw [hnone, List.append_nil, List.append_nil]⟩

/-- Padding is passed over in both of two alike texts, up to their ends, two common characters or
two strings. -/
theorem exists_padding (dialect : Dialect) (h : Alike s t) :
    ∃ s' t', Takes dialect.grammar gap s s' ∧
    Takes dialect.grammar gap t t' ∧ s'.length ≤ s.length ∧
      (s' = [] ∧ t' = [] ∨
        (¬AtBreak s' ∧ ¬AtBreak t' ∧ Alike s' t') ∨
        ∃ first second u v, IsLiteral first ∧ IsLiteral second ∧ s' = first ++ u ∧
          t' = second ++ v ∧ Alike u v) := by
  have hseps : seps ∈ dialect.rules := by simp [rules, lexicalRules]
  have hstays : ∀ {s : List Char}, Derives dialect.grammar (.call "sep") s .failed →
      Takes dialect.grammar gap s s := fun hfailed =>
    (takes_call hseps).mpr ⟨_, .starStop hfailed id⟩
  have hgoes : ∀ {taken s rest : List Char}, Separator taken s → Takes dialect.grammar gap s rest →
      Takes dialect.grammar gap (taken ++ s) rest := by
    intro taken s rest htaken hothers
    obtain ⟨_, hround⟩ := (@takes_sep dialect _ _).mpr ⟨taken, htaken, rfl⟩
    obtain ⟨_, hothers⟩ := (takes_call hseps).mp hothers
    exact (takes_call hseps).mpr ⟨_, .starMore hround hothers⟩
  induction h with
  | nil =>
      exact ⟨[], [], hstays failed_sep_nil, hstays failed_sep_nil, Nat.le_refl _, .inl ⟨rfl, rfl⟩⟩
  | char left right others _ =>
      exact ⟨_, _, hstays (failed_sep_of_not_atBreak left),
        hstays (failed_sep_of_not_atBreak right),
        Nat.le_refl _, .inr (.inl ⟨left, right, .char left right others⟩)⟩
  | @padding first second s t left right _ ih =>
      obtain ⟨s', t', hs, ht, hle, hcases⟩ := ih
      refine ⟨s', t', hgoes left hs, hgoes right ht, ?_, hcases⟩
      rw [List.length_append]
      omega
  | @string first second s t left right others _ =>
      exact ⟨_, _, hstays (failed_sep_of_isLiteral left _),
        hstays (failed_sep_of_isLiteral right _), Nat.le_refl _,
        .inr (.inr ⟨first, second, s, t, left, right, rfl, rfl, others⟩)⟩

/-- A literal is the longest token that a text begins with. -/
theorem longestPrefix_of_isLiteral (h : IsLiteral text) (s : List Char) :
    LongestPrefix dialect.IsAnyToken text (text ++ s) where
  holds := ⟨.string, isToken_string h⟩
  isPrefix := List.prefix_append text s
  longest := by
    rintro other ⟨shape, hshape⟩ ⟨after, hafter⟩
    cases shape with
    | string => rw [hshape.isLiteral.eq_of_append_eq h hafter]
    | spelled spelling =>
        rcases hshape.joined.2 with hjoined | ⟨c, rfl⟩
        · by_cases hnone : other = []
          · rw [hnone]
            exact Nat.zero_le _
          · exact absurd (hafter ▸ atBreak_of_isLiteral h s) (hjoined.not_atBreak hnone)
        · exact Nat.le_of_lt h.one_lt_length

/-- Where two alike texts begin with a common character, they begin with a common token. -/
theorem exists_token (dialect : Dialect) (h : Alike s t) (hs : ¬AtBreak s) (ht : ¬AtBreak t) :
    ∃ text shape u v, text ≠ [] ∧ dialect.IsToken shape text ∧ s = text ++ u ∧ t = text ++ v ∧
      LongestPrefix dialect.IsAnyToken text s ∧ LongestPrefix dialect.IsAnyToken text t ∧
        Alike u v := by
  obtain ⟨run, s', t', rfl, rfl, hs', ht', hparts⟩ := h.exists_run
  have hrun : run ≠ [] := by
    rintro rfl
    exact hs hs'
  obtain ⟨c, more, rfl⟩ := List.exists_cons_of_ne_nil hrun
  have hfirst : dialect.IsAnyToken [c] := ⟨_, .other c⟩
  obtain ⟨text, hlongest, hlength⟩ :=
    exists_longestPrefix (s := c :: more ++ s') hfirst (List.prefix_append [c] (more ++ s'))
  obtain ⟨shape, hshape⟩ := hlongest.holds
  obtain ⟨back, hback⟩ := prefix_of_isAnyToken hs hs' hlongest.holds hlongest.isPrefix
  refine ⟨text, shape, back ++ s', back ++ t', ?_, hshape, ?_, ?_, hlongest,
    ⟨hlongest.holds, ?_, ?_⟩, hparts text back hback.symm⟩
  · exact List.ne_nil_of_length_pos hlength
  · rw [← hback, List.append_assoc]
  · rw [← hback, List.append_assoc]
  · rw [← hback, List.append_assoc]
    exact List.prefix_append text _
  · intro other hother hbegin
    have hwithin := prefix_of_isAnyToken ht ht' hother hbegin
    exact hlongest.longest other hother (hwithin.trans (List.prefix_append _ s'))

/-- Alike texts have the same tokens. -/
theorem exists_lexes (dialect : Dialect) {s t : List Char} (h : Alike s t) :
    ∃ shapes, dialect.Lexes s shapes ∧ dialect.Lexes t shapes := by
  obtain ⟨s', t', hs, ht, hle, hcases⟩ := h.exists_padding dialect
  rcases hcases with
    ⟨rfl, rfl⟩ | ⟨hs', ht', halike⟩ | ⟨first, second, u, v, hfirst, hsecond, rfl, rfl, halike⟩
  · exact ⟨[], .done hs, .done ht⟩
  · obtain ⟨text, shape, u, v, htext, hshape, rfl, rfl, hleft, hright, hothers⟩ :=
      halike.exists_token dialect hs' ht'
    have hpos := List.length_pos_iff.mpr htext
    rw [List.length_append] at hle
    have hshorter : u.length < s.length := by omega
    obtain ⟨shapes, hu, hv⟩ := exists_lexes dialect hothers
    exact ⟨shape :: shapes, .token hs htext hleft hshape hu, .token ht htext hright hshape hv⟩
  · have hlength := hfirst.one_lt_length
    have hlength' := hsecond.one_lt_length
    rw [List.length_append] at hle
    have hshorter : u.length < s.length := by omega
    obtain ⟨shapes, hu, hv⟩ := exists_lexes dialect halike
    exact ⟨.string :: shapes,
      .token hs (List.ne_nil_of_length_pos (by omega)) (longestPrefix_of_isLiteral hfirst u)
        (isToken_string hfirst) hu,
      .token ht (List.ne_nil_of_length_pos (by omega)) (longestPrefix_of_isLiteral hsecond v)
        (isToken_string hsecond) hv⟩
termination_by s.length

end

end Alike

end CartLua
