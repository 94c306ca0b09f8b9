import CartLua.Proofs.Derivation.Shallow
import CartLua.Proofs.Desugar.OneLine
import CartLua.Proofs.Lexical.Keywords

/-!
# Quoted literals

A quoted literal is a row of pieces between two quotes.  A piece is a character that stands for
itself, or a backslash with the text of an escape.  Some escapes take as much as they can: up
to three digits, a line break of two characters, all the blanks after a `z`.  The grammar
matches just the rows in which each piece fits the text after it.
-/

namespace CartLua

open Dialect

/-! ## Escapes -/

/-- What is left after the line break at the start of a text. -/
theorem OneLine.afterBreak?_eq_some_iff {s rest : List Char} : afterBreak? s = some rest ↔
    s = '\r' :: '\n' :: rest ∨ s = '\n' :: '\r' :: rest ∨
      (s = '\r' :: rest ∧ StartsOutside ['\n'] rest) ∨
        (s = '\n' :: rest ∧ StartsOutside ['\r'] rest) := by
  constructor
  · intro h
    rw [afterBreak?.eq_def] at h
    split at h <;> cases h
    · exact .inl rfl
    · exact .inr (.inl rfl)
    · exact .inr (.inr (.inl ⟨rfl, by cases rest <;> simp_all⟩))
    · exact .inr (.inr (.inr ⟨rfl, by cases rest <;> simp_all⟩))
  · rintro (rfl | rfl | ⟨rfl, hrest⟩ | ⟨rfl, hrest⟩)
    · rfl
    · rfl
    · exact afterBreak?.eq_3 rest fun more hmore => by simp [hmore] at hrest
    · exact afterBreak?.eq_4 rest fun more hmore => by simp [hmore] at hrest

/-- A line break begins with a line end. -/
theorem OneLine.exists_of_afterBreak? {s rest : List Char} (h : afterBreak? s = some rest) :
    ∃ c marks, s = c :: (marks ++ rest) ∧ (c = '\r' ∨ c = '\n') := by
  rcases afterBreak?_eq_some_iff.mp h with rfl | rfl | ⟨rfl, -⟩ | ⟨rfl, -⟩
  · exact ⟨'\r', ['\n'], rfl, .inl rfl⟩
  · exact ⟨'\n', ['\r'], rfl, .inr rfl⟩
  · exact ⟨'\r', [], rfl, .inl rfl⟩
  · exact ⟨'\n', [], rfl, .inr rfl⟩

/-- The line breaks in front of what is left. -/
theorem OneLine.afterBreak?_append_eq_some_iff {marks rest : List Char} :
    afterBreak? (marks ++ rest) = some rest ↔ marks = ['\r', '\n'] ∨ marks = ['\n', '\r'] ∨
      (marks = ['\r'] ∧ StartsOutside ['\n'] rest) ∨
        (marks = ['\n'] ∧ StartsOutside ['\r'] rest) := by
  have hcancel : ∀ cs : List Char, marks ++ rest = cs ++ rest ↔ marks = cs :=
    fun _ => List.append_left_inj rest
  rw [afterBreak?_eq_some_iff]
  exact or_congr (hcancel ['\r', '\n']) (or_congr (hcancel ['\n', '\r'])
    (or_congr (and_congr_left' (hcancel ['\r'])) (and_congr_left' (hcancel ['\n']))))

/-- The letters and marks that are escapes of their own. -/
def escapeLetters : List Char := "abfnrtv\\\"'".toList

/-- What may stand after a backslash in front of a text. -/
inductive Escape : (text rest : List Char) → Prop
  | hexByte {high low : Char} {rest : List Char} (high_mem : high ∈ hexDigits.toList)
      (low_mem : low ∈ hexDigits.toList) : Escape ['x', high, low] rest
  | decimalByte {number rest : List Char} (nonempty : number ≠ [])
      (number_digits : ∀ d ∈ number, d ∈ digits.toList) (length_le : number.length ≤ 3)
      (longest : number.length < 3 → StartsOutside digits.toList rest) : Escape number rest
  | codePoint {number rest : List Char} (nonempty : number ≠ [])
      (number_digits : ∀ d ∈ number, d ∈ hexDigits.toList) :
      Escape ('u' :: '\x7b' :: (number ++ ['\x7d'])) rest
  | letter {c : Char} {rest : List Char} (mem : c ∈ escapeLetters) : Escape [c] rest
  | lineBreak {marks rest : List Char}
      (longest : OneLine.afterBreak? (marks ++ rest) = some rest) : Escape marks rest
  | skipSpaces {blanks rest : List Char} (blanks_spaces : ∀ c ∈ blanks, c ∈ spaces.toList)
      (longest : StartsOutside spaces.toList rest) : Escape ('z' :: blanks) rest

theorem StartsOutside.congr_head {chars s t : List Char} (h : StartsOutside chars s)
    (hhead : t.head? = s.head?) : StartsOutside chars t :=
  fun c hc => h c (hhead ▸ hc)

/-- Which escape stands in front of a text is up to the first character of the text. -/
theorem Escape.congr_head {text rest other : List Char} (h : Escape text rest)
    (hhead : other.head? = rest.head?) : Escape text other := by
  cases h with
  | hexByte high_mem low_mem => exact .hexByte high_mem low_mem
  | decimalByte nonempty number_digits length_le longest =>
      exact .decimalByte nonempty number_digits length_le fun hlt => (longest hlt).congr_head hhead
  | codePoint nonempty number_digits => exact .codePoint nonempty number_digits
  | letter mem => exact .letter mem
  | lineBreak longest =>
      rw [OneLine.afterBreak?_append_eq_some_iff] at longest
      refine .lineBreak (OneLine.afterBreak?_append_eq_some_iff.mpr ?_)
      rcases longest with hmarks | hmarks | ⟨hmarks, hends⟩ | ⟨hmarks, hends⟩
      · exact .inl hmarks
      · exact .inr (.inl hmarks)
      · exact .inr (.inr (.inl ⟨hmarks, hends.congr_head hhead⟩))
      · exact .inr (.inr (.inr ⟨hmarks, hends.congr_head hhead⟩))
  | skipSpaces blanks_spaces longest => exact .skipSpaces blanks_spaces (longest.congr_head hhead)

namespace Dialect

/-- Characters that are listed are checked one by one. -/
theorem forall_mem_of_all {α : Type} {p : α → Prop} [DecidablePred p] {xs : List α}
    (h : xs.all (fun x => decide (p x)) = true) : ∀ x ∈ xs, p x :=
  fun x hx => of_decide_eq_true (List.all_eq_true.mp h x hx)

theorem ordinary_iff {c : Char} :
    ordinary c = true ↔ c ≠ '\\' ∧ c ≠ 'z' ∧ OneLine.isLineEnd c = false := by
  simp [ordinary, and_assoc]

theorem of_mem_digits : ∀ d ∈ digits.toList, d ≠ 'x' ∧ ordinary d = true :=
  forall_mem_of_all (by decide)

theorem ordinary_of_mem_hexDigits : ∀ d ∈ hexDigits.toList, ordinary d = true :=
  forall_mem_of_all (by decide)

theorem of_mem_escapeLetters : ∀ c ∈ escapeLetters,
    c ≠ 'x' ∧ c ∉ digits.toList ∧ c ≠ 'u' ∧ c ≠ 'z' ∧ OneLine.isLineEnd c = false :=
  forall_mem_of_all (by decide)

variable {g : Grammar} {s rest : List Char}

theorem takes_hexByte : Takes g hexByte s rest ↔
    ∃ high ∈ hexDigits.toList, ∃ low ∈ hexDigits.toList, s = 'x' :: high :: low :: rest := by
  simp only [hexByte, Pattern.ifMust, Pattern.one, List.map_cons, List.map_nil, takes_seq_cons,
    takes_seq_nil, takes_must, takes_oneOf]
  constructor
  · rintro ⟨_, ⟨c, hc, rfl⟩, _, ⟨high, hhigh, rfl⟩, _, ⟨low, hlow, rfl⟩, rfl⟩
    obtain rfl : c = 'x' := by simpa using hc
    exact ⟨high, hhigh, low, hlow, rfl⟩
  · rintro ⟨high, hhigh, low, hlow, rfl⟩
    exact ⟨_, ⟨'x', .head _, rfl⟩, _, ⟨high, hhigh, rfl⟩, _, ⟨low, hlow, rfl⟩, rfl⟩

theorem takes_decimalByte : Takes g decimalByte s rest ↔
    ∃ number, number ≠ [] ∧ (∀ d ∈ number, d ∈ digits.toList) ∧ number.length ≤ 3 ∧
      (number.length < 3 → StartsOutside digits.toList rest) ∧ s = number ++ rest := by
  simp only [decimalByte, Pattern.ifMust, Pattern.one, Pattern.upTo, Pattern.inOrder_singleton,
    List.map_cons, List.map_nil, takes_seq_cons, takes_seq_nil, takes_must, takes_oneOf]
  have hcount : ∀ {s rest : List Char},
      Takes g (.atMost 2 (.terminal (.oneOf digits.toList false))) s rest ↔ _ :=
    @fun s rest => @takes_atMost_oneOf g digits.toList s rest 2
  constructor
  · rintro ⟨_, ⟨d, hd, rfl⟩, _, hothers, rfl⟩
    obtain ⟨others, hlength, hdigits, hrest, rfl⟩ := hcount.mp hothers
    exact ⟨d :: others, List.cons_ne_nil d others,
      List.forall_mem_cons.mpr ⟨hd, hdigits⟩, Nat.succ_le_succ hlength,
      fun h => hrest (Nat.lt_of_succ_lt_succ h), rfl⟩
  · rintro ⟨number, hne, hdigits, hlength, hrest, rfl⟩
    cases number with
    | nil => exact absurd rfl hne
    | cons d others =>
        obtain ⟨hd, hothers⟩ := List.forall_mem_cons.mp hdigits
        exact ⟨_, ⟨d, hd, rfl⟩, rest, hcount.mpr ⟨others,
          Nat.le_of_succ_le_succ hlength, hothers, fun h => hrest (Nat.succ_lt_succ h), rfl⟩, rfl⟩

theorem takes_unicodeEscape : Takes g unicodeEscape s rest ↔
    ∃ number, number ≠ [] ∧ (∀ d ∈ number, d ∈ hexDigits.toList) ∧
      s = 'u' :: '\x7b' :: (number ++ '\x7d' :: rest) := by
  simp only [unicodeEscape, Pattern.ifMust, Pattern.one, Pattern.many1, Pattern.inOrder_singleton,
    List.map_cons, List.map_nil, takes_seq_cons, takes_seq_nil, takes_must, takes_oneOf,
    takes_plus_oneOf]
  constructor
  · rintro ⟨_, ⟨u, hu, rfl⟩, _, ⟨opening, hopening, rfl⟩, _, ⟨number, hne, hdigits, -, rfl⟩, _,
      ⟨closing, hclosing, rfl⟩, rfl⟩
    obtain rfl : u = 'u' := by simpa using hu
    obtain rfl : opening = '\x7b' := by simpa using hopening
    obtain rfl : closing = '\x7d' := by simpa using hclosing
    exact ⟨number, hne, hdigits, rfl⟩
  · rintro ⟨number, hne, hdigits, rfl⟩
    have hclosing : StartsOutside hexDigits.toList ('\x7d' :: rest) := by
      rw [startsOutside_cons]
      decide
    exact ⟨_, ⟨'u', .head _, rfl⟩, _, ⟨'\x7b', .head _, rfl⟩, _,
      ⟨number, hne, hdigits, hclosing, rfl⟩, _, ⟨'\x7d', .head _, rfl⟩, rfl⟩

theorem takes_skipSpaces : Takes g skipSpaces s rest ↔
    ∃ blanks, (∀ c ∈ blanks, c ∈ spaces.toList) ∧ StartsOutside spaces.toList rest ∧
      s = 'z' :: (blanks ++ rest) := by
  simp only [skipSpaces, Pattern.inOrder, Pattern.one, Pattern.many, takes_seq_cons, takes_seq_nil,
    takes_oneOf, takes_star_oneOf]
  constructor
  · rintro ⟨_, ⟨c, hc, rfl⟩, _, ⟨blanks, hblanks, hrest, rfl⟩, rfl⟩
    obtain rfl : c = 'z' := by simpa using hc
    exact ⟨blanks, hblanks, hrest, rfl⟩
  · rintro ⟨blanks, hblanks, hrest, rfl⟩
    exact ⟨_, ⟨'z', .head _, rfl⟩, _, ⟨blanks, hblanks, hrest, rfl⟩, rfl⟩

/-- A line break is taken as a whole. -/
theorem takes_lineBreak : Takes g lineBreak s rest ↔ OneLine.afterBreak? s = some rest := by
  simp only [lineBreak, Pattern.text, Pattern.one, takes_choice_cons, takes_choice_nil, and_false,
    or_false, takes_literal, takes_oneOf, failed_literal_iff, OneLine.afterBreak?_eq_some_iff]
  constructor
  · rintro (rfl | ⟨hfirst, rfl | ⟨hsecond, c, hc, rfl⟩⟩)
    · exact .inl rfl
    · exact .inr (.inl rfl)
    · have hend : c = '\r' ∨ c = '\n' := by simpa using hc
      rcases hend with rfl | rfl
      · exact .inr (.inr (.inl ⟨rfl, by simpa [startsOutside_singleton] using hfirst⟩))
      · exact .inr (.inr (.inr ⟨rfl, by simpa [startsOutside_singleton] using hsecond⟩))
  · rintro (rfl | rfl | ⟨rfl, hrest⟩ | ⟨rfl, hrest⟩)
    · exact .inl rfl
    · exact .inr ⟨by simp, .inl rfl⟩
    · rw [startsOutside_singleton] at hrest
      exact .inr ⟨by simpa using hrest, .inr ⟨by simp, '\r', by decide, rfl⟩⟩
    · rw [startsOutside_singleton] at hrest
      exact .inr ⟨by simp, .inr ⟨by simpa using hrest, '\n', by decide, rfl⟩⟩

theorem failed_lineBreak_iff :
    Derives g lineBreak s .failed ↔ StartsOutside ['\r', '\n'] s := by
  simp only [lineBreak, Pattern.text, Pattern.one, failed_choice_cons_iff, failed_literal_iff,
    failed_oneOf_iff]
  constructor
  · exact fun h => h.2.2.1
  · intro hs
    refine ⟨?_, ?_, hs, .choiceNil s⟩
    · rintro ⟨rest, rfl⟩
      simp at hs
    · rintro ⟨rest, rfl⟩
      simp at hs

theorem failed_ifMust_one_iff {chars : String} {items : List Pattern} :
    Derives g (.ifMust (.one chars) items) s .failed ↔ StartsOutside chars.toList s :=
  failed_ifMust_iff.trans failed_oneOf_iff

/-- The kinds of escapes are tried in order.  No text begins like two of them, but for the
digit that is an escape of its own and never tried as one. -/
theorem takes_escapes :
    Takes g (.choice [hexByte, decimalByte, unicodeEscape, singleEscape, lineBreak, skipSpaces])
      s rest ↔ ∃ text, Escape text rest ∧ s = text ++ rest := by
  have hhex : Derives g hexByte s .failed ↔ StartsOutside ['x'] s := failed_ifMust_one_iff
  have hdecimal : Derives g decimalByte s .failed ↔ StartsOutside digits.toList s :=
    failed_ifMust_one_iff
  have hcode : Derives g unicodeEscape s .failed ↔ StartsOutside ['u'] s := failed_ifMust_one_iff
  have hsingles : "abfnrtv\\\"'0".toList = escapeLetters ++ ['0'] := by decide
  have htaken : Takes g singleEscape s rest ↔ ∃ c ∈ "abfnrtv\\\"'0".toList, s = c :: rest :=
    takes_oneOf
  have hsingle : Derives g singleEscape s .failed ↔ StartsOutside "abfnrtv\\\"'0".toList s :=
    failed_oneOf_iff
  simp only [takes_choice_cons, takes_choice_nil, and_false, or_false, takes_hexByte,
    takes_decimalByte, takes_unicodeEscape, htaken, takes_lineBreak, takes_skipSpaces,
    failed_lineBreak_iff, hhex, hdecimal, hcode, hsingle]
  constructor
  · rintro (⟨high, hhigh, low, hlow, rfl⟩ | ⟨-, ⟨number, hne, hdigits, hlength, hrest, rfl⟩ |
      ⟨hdigit, ⟨number, hne, hdigits, rfl⟩ | ⟨-, ⟨c, hc, rfl⟩ | ⟨-, hbreak |
        ⟨-, blanks, hblanks, hrest, rfl⟩⟩⟩⟩⟩)
    · exact ⟨_, .hexByte hhigh hlow, rfl⟩
    · exact ⟨_, .decimalByte hne hdigits hlength hrest, rfl⟩
    · exact ⟨_, .codePoint hne hdigits, by simp⟩
    · rw [hsingles, List.mem_append, List.mem_singleton] at hc
      rcases hc with hc | rfl
      · exact ⟨[c], .letter hc, rfl⟩
      · -- A zero is a digit, so the number was tried before it and taken.
        rw [startsOutside_cons] at hdigit
        exact absurd (by decide) hdigit
    · obtain ⟨c, marks, rfl, -⟩ := OneLine.exists_of_afterBreak? hbreak
      exact ⟨c :: marks, .lineBreak hbreak, rfl⟩
    · exact ⟨_, .skipSpaces hblanks hrest, rfl⟩
  · rintro ⟨text, hescape, rfl⟩
    cases hescape with
    | hexByte hhigh hlow => exact .inl ⟨_, hhigh, _, hlow, rfl⟩
    | @decimalByte number rest hne hdigits hlength hrest =>
        refine .inr ⟨?_, .inl ⟨text, hne, hdigits, hlength, hrest, rfl⟩⟩
        cases text with
        | nil => exact absurd rfl hne
        | cons d number =>
            rw [List.cons_append, startsOutside_cons, List.mem_singleton]
            exact (of_mem_digits d (hdigits d List.mem_cons_self)).1
    | @codePoint number rest hne hdigits =>
        refine .inr ⟨?_, .inr ⟨?_, .inl ⟨number, hne, hdigits, by simp⟩⟩⟩
        · simp
        · rw [List.cons_append, startsOutside_cons]
          decide
    | @letter c rest hc =>
        obtain ⟨hx, hd, hu, -, -⟩ := of_mem_escapeLetters c hc
        simp only [List.singleton_append, startsOutside_cons, List.mem_singleton]
        have hmem : c ∈ "abfnrtv\\\"'0".toList := hsingles ▸ List.mem_append_left _ hc
        exact .inr ⟨hx, .inr ⟨hd, .inr ⟨hu, .inl ⟨c, hmem, rfl⟩⟩⟩⟩
    | lineBreak hbreak =>
        obtain ⟨c, marks, hmarks, hc⟩ := OneLine.exists_of_afterBreak? hbreak
        have hnot : c ∉ ['x'] ∧ c ∉ digits.toList ∧ c ∉ ['u'] ∧ c ∉ "abfnrtv\\\"'0".toList := by
          rcases hc with rfl | rfl <;> decide
        rw [hmarks] at hbreak ⊢
        simp only [startsOutside_cons]
        exact .inr ⟨hnot.1, .inr ⟨hnot.2.1, .inr ⟨hnot.2.2.1, .inr ⟨hnot.2.2.2, .inl hbreak⟩⟩⟩⟩
    | @skipSpaces blanks rest hblanks hrest =>
        simp only [List.cons_append, startsOutside_cons]
        exact .inr ⟨by decide, .inr ⟨by decide, .inr ⟨by decide, .inr ⟨by decide, .inr ⟨by decide,
          blanks, hblanks, hrest, rfl⟩⟩⟩⟩⟩

theorem takes_escaped : Takes g escaped.body s rest ↔
    ∃ text, Escape text rest ∧ s = '\\' :: (text ++ rest) := by
  rw [escaped, Pattern.ifMust, Pattern.one]
  simp only [List.map_cons, List.map_nil, takes_seq_cons, takes_seq_nil, takes_must, takes_escapes,
    takes_oneOf]
  constructor
  · rintro ⟨_, ⟨c, hc, rfl⟩, _, ⟨text, hescape, rfl⟩, rfl⟩
    obtain rfl : c = '\\' := by simpa using hc
    exact ⟨text, hescape, rfl⟩
  · rintro ⟨text, hescape, rfl⟩
    exact ⟨_, ⟨'\\', .head _, rfl⟩, _, ⟨text, hescape, rfl⟩, rfl⟩

end Dialect

/-! ## Pieces -/

/-- A piece of a quoted literal. -/
inductive Piece
  /-- A character that stands for itself. -/
  | plain (c : Char)
  /-- A backslash and the text of an escape. -/
  | escape (text : List Char)
  deriving DecidableEq, Repr

namespace Piece

/-- The text of a piece. -/
def text : Piece → List Char
  | plain c => [c]
  | escape text => '\\' :: text

/-- Whether a piece may stand in front of a text, in a literal with these quotes. -/
def Fits (quote : Char) : Piece → List Char → Prop
  | plain c, _ => c ≠ '\\' ∧ c ≠ quote ∧ OneLine.isLineEnd c = false
  | escape text, rest => Escape text rest

/-- The text of pieces in a row. -/
def textOfAll (pieces : List Piece) : List Char := pieces.flatMap text

/-- Whether each of several pieces fits what follows it up to the closing quote. -/
def AllFit (quote : Char) : List Piece → Prop
  | [] => True
  | piece :: pieces => piece.Fits quote (textOfAll pieces ++ [quote]) ∧ AllFit quote pieces

theorem textOfAll_cons (piece : Piece) (pieces : List Piece) :
    textOfAll (piece :: pieces) = piece.text ++ textOfAll pieces := rfl

/-- No piece begins with the closing quote. -/
theorem Fits.startsOutside {quote : Char} {piece : Piece} {rest : List Char}
    (hbackslash : quote ≠ '\\') (h : piece.Fits quote rest) (s : List Char) :
    StartsOutside [quote] (piece.text ++ s) := by
  cases piece with
  | plain c => simpa [text] using h.2.1
  | escape _ => simpa [text] using hbackslash.symm

/-- Whether a piece may stand in front of a text is up to the first character of the text. -/
theorem Fits.congr_head {quote : Char} {piece : Piece} {rest other : List Char}
    (h : piece.Fits quote rest) (hhead : other.head? = rest.head?) : piece.Fits quote other := by
  cases piece with
  | plain c => exact h
  | escape text => exact Escape.congr_head h hhead

/-- What begins with pieces and a quote begins as it does without what follows. -/
theorem head?_textOfAll_append (pieces : List Piece) (quote : Char) (rest : List Char) :
    (textOfAll pieces ++ quote :: rest).head? = (textOfAll pieces ++ [quote]).head? := by
  cases textOfAll pieces <;> rfl

end Piece

namespace Tree

/-- The piece that is a character of a literal. -/
def piece? : Tree → Option Piece
  | node _ [chars [c]] => some (.plain c)
  | node _ [node _ parts] => some (.escape ((textOfAll parts).drop 1))
  | _ => none

/-- The pieces of a literal. -/
def pieces : Tree → List Piece
  | chars _ => []
  | node _ parts => parts.filterMap piece?

end Tree

namespace Dialect

open Piece

variable {dialect : Dialect} {quote : Char} {s rest : List Char} {parts : List Tree}

theorem mem_characterRule : characterRule ∈ dialect.rules := by simp [rules, lexicalRules]

theorem mem_escaped : escaped ∈ dialect.rules := by simp [rules, lexicalRules]

/-- A character of a literal is a piece that fits what follows. -/
theorem of_character (hquote : StartsOutside [quote] s)
    (h : Derives dialect.grammar (.call "character") s (.matched parts rest)) :
    ∃ part piece, parts = [part] ∧ part.piece? = some piece ∧ piece.Fits quote rest ∧
      s = piece.text ++ rest := by
  obtain ⟨inner, rfl, hinner⟩ := derives_of_call mem_characterRule h
  cases hinner with
  | choiceHere first _ =>
      obtain ⟨taken, rfl, hescaped⟩ := derives_of_call mem_escaped first
      obtain ⟨text, hescape, hs⟩ := takes_escaped.mp ⟨taken, hescaped⟩
      have htext : Tree.textOfAll taken = '\\' :: text := by
        apply (List.append_left_inj rest).mp
        rw [← hescaped.toMatch.text_eq, hs, List.cons_append]
      refine ⟨_, .escape text, rfl, ?_, hescape, hs⟩
      rw [Tree.piece?, htext, List.drop_one, List.tail_cons]
  | choiceNext hfailed others =>
      -- The escape is tried before the character, and after a backslash it does not fail.
      obtain ⟨item, hitem, hmatch⟩ := others.of_choice
      obtain rfl := List.mem_singleton.mp hitem
      obtain ⟨c, hc, rfl, rfl⟩ := Match.of_oneOf hmatch.toMatch
      have hplain : c ≠ '\\' := by
        rintro rfl
        have hbody := (failed_call_iff mem_escaped).mp hfailed
        exact absurd (failed_ifMust_one_iff.mp hbody) (by simp)
      refine ⟨_, .plain c, rfl, rfl, ⟨hplain, by simpa using hquote, ?_⟩, rfl⟩
      simp only [OneLine.isLineEnd]
      simpa [and_comm] using hc

/-- A piece that fits what follows is a character of a literal. -/
theorem derives_character {piece : Piece} (h : piece.Fits quote rest) :
    ∃ part : Tree, Derives dialect.grammar (.call "character") (piece.text ++ rest)
      (.matched [part] rest) ∧ part.piece? = some piece := by
  cases piece with
  | plain c =>
      obtain ⟨hplain, -, hend⟩ := h
      have hfailed : Derives dialect.grammar (.call "escaped") (c :: rest) .failed :=
        failed_call mem_escaped (failed_ifMust_one_iff.mpr (by simpa using hplain))
      have htaken :
          Derives dialect.grammar (.noneOf "\r\n") (c :: rest) (.matched [.chars [c]] rest) := by
        apply Derives.of_answer
        apply Terminal.answer_oneOf
        simp only [OneLine.isLineEnd] at hend
        simpa [and_comm] using hend
      have hcharacter : Derives dialect.grammar characterRule.body (c :: rest) _ :=
        .choiceNext hfailed (.choiceHere htaken (by simp))
      exact ⟨_, derives_call mem_characterRule hcharacter, rfl⟩
  | escape text =>
      obtain ⟨taken, hescaped⟩ : Takes dialect.grammar escaped.body ('\\' :: (text ++ rest)) rest :=
        takes_escaped.mpr ⟨text, h, rfl⟩
      have htext : Tree.textOfAll taken = '\\' :: text := by
        apply (List.append_left_inj rest).mp
        rw [← hescaped.toMatch.text_eq, List.cons_append]
      have hcalled := derives_call mem_escaped hescaped
      refine ⟨_, derives_call mem_characterRule (.choiceHere hcalled (by simp)), ?_⟩
      rw [Tree.piece?, htext, List.drop_one, List.tail_cons]

/-- The characters up to the closing quote are pieces that fit. -/
theorem of_characters {site : Site}
    (h : Derives dialect.grammar (.repeatUntil site (.terminal (.oneOf [quote] false))
      (.call "character")) s (.matched parts rest)) :
    AllFit quote (parts.filterMap Tree.piece?) ∧
      s = textOfAll (parts.filterMap Tree.piece?) ++ quote :: rest := by
  generalize hp :
    Pattern.repeatUntil site (.terminal (.oneOf [quote] false)) (.call "character") = p at h
  induction h using Derives.matched_induction with
  | untilHere here _ =>
      cases hp
      obtain ⟨c, hc, rfl, rfl⟩ := Match.of_oneOf here.toMatch
      obtain rfl : c = quote := by simpa using hc
      exact ⟨trivial, rfl⟩
  | untilMore here round _ _ ihothers =>
      cases hp
      obtain ⟨part, piece, rfl, hpart, hfits, rfl⟩ := of_character (failed_oneOf_iff.mp here) round
      obtain ⟨hall, rfl⟩ := ihothers rfl
      rw [List.singleton_append, List.filterMap_cons_some hpart, textOfAll_cons, List.append_assoc]
      exact ⟨⟨hfits.congr_head (head?_textOfAll_append _ _ _).symm, hall⟩, rfl⟩
  | _ => cases hp

/-- Pieces that fit are the characters up to the closing quote. -/
theorem derives_characters {site : Site} (hbackslash : quote ≠ '\\') {pieces : List Piece}
    (h : AllFit quote pieces) (rest : List Char) :
    ∃ parts : List Tree, Derives dialect.grammar
      (.repeatUntil site (.terminal (.oneOf [quote] false)) (.call "character"))
      (textOfAll pieces ++ quote :: rest) (.matched parts rest) ∧
        parts.filterMap Tree.piece? = pieces := by
  induction pieces with
  | nil =>
      have hstop : Derives dialect.grammar (.terminal (.oneOf [quote] false)) (quote :: rest)
          (.matched [.chars [quote]] rest) := .of_answer (Terminal.answer_oneOf (by simp))
      exact ⟨_, .untilHere hstop (by simp), rfl⟩
  | cons piece pieces ih =>
      obtain ⟨hfits, hall⟩ := h
      obtain ⟨part, hround, hpart⟩ := @derives_character dialect _ _ _
        (hfits.congr_head (head?_textOfAll_append pieces quote rest))
      obtain ⟨parts, hothers, rfl⟩ := ih hall
      have hhere := failed_oneOf_iff (g := dialect.grammar).mpr
        (hfits.startsOutside hbackslash (textOfAll (parts.filterMap Tree.piece?) ++ quote :: rest))
      rw [textOfAll_cons, List.append_assoc]
      exact ⟨_, .untilMore hhere hround hothers, List.filterMap_cons_some hpart⟩

/-- The rules of the quoted literals, with their quotes. -/
inductive Quotes : Rule → Char → Prop
  | double : Quotes doubleQuoteString '"'
  | single : Quotes singleQuoteString '\''

namespace Quotes

variable {rule : Rule} {quote : Char}

theorem mem_rules (h : Quotes rule quote) : rule ∈ dialect.rules := by
  cases h <;> simp [rules, lexicalRules]

theorem body_eq (h : Quotes rule quote) : rule.body =
    .ifMust (.terminal (.oneOf [quote] false))
      [.untilMatch (.terminal (.oneOf [quote] false)) [.call "character"]] := by
  cases h <;> rfl

theorem ne_backslash (h : Quotes rule quote) : quote ≠ '\\' := by
  cases h <;> decide

theorem isLineEnd_eq_false (h : Quotes rule quote) : OneLine.isLineEnd quote = false := by
  cases h <;> decide

theorem isBlank_eq_false (h : Quotes rule quote) : Text.isBlank quote = false := by
  cases h <;> decide

end Quotes

variable {rule : Rule} {tree : Tree}

/-- A literal is a row of pieces that fit, between two quotes. -/
theorem of_quoted (hrule : Quotes rule quote)
    (h : Derives dialect.grammar (.rule rule.name) s (.matched [tree] rest)) :
    AllFit quote tree.pieces ∧ s = quote :: (textOfAll tree.pieces ++ quote :: rest) := by
  generalize ha : Answer.matched [tree] rest = a at h
  cases h with
  | @rule _ _ _ a found inner =>
      cases (rule?_grammar hrule.mem_rules).symm.trans found
      cases a <;> cases ha
      rw [hrule.body_eq, Pattern.ifMust] at inner
      obtain ⟨_, _, _, hopen, hothers, rfl⟩ := inner.of_seq_cons
      obtain ⟨content, _, _, hcontent, hnil, rfl⟩ := hothers.of_seq_cons
      obtain ⟨rfl, rfl⟩ := Match.seq_nil_iff.mp hnil.toMatch
      obtain ⟨c, hc, rfl, rfl⟩ := Match.of_oneOf hopen.toMatch
      obtain rfl : c = quote := by simpa using hc
      obtain ⟨hall, htext⟩ := of_characters hcontent.of_must
      rw [Tree.pieces, List.singleton_append, List.append_nil]
      exact ⟨hall, congrArg (c :: ·) htext⟩

/-- A row of pieces that fit, between two quotes, is matched whatever follows. -/
theorem derives_quoted_append (hrule : Quotes rule quote) {pieces : List Piece}
    (h : AllFit quote pieces) (rest : List Char) :
    ∃ tree : Tree, Derives dialect.grammar (.rule rule.name)
      (quote :: (textOfAll pieces ++ quote :: rest)) (.matched [tree] rest) ∧
        tree.pieces = pieces := by
  obtain ⟨parts, hcontent, hparts⟩ := @derives_characters dialect _ none
    hrule.ne_backslash _ h rest
  have hopen : Derives dialect.grammar (.terminal (.oneOf [quote] false))
      (quote :: (textOfAll pieces ++ quote :: rest)) (.matched [.chars [quote]] _) :=
    .of_answer (Terminal.answer_oneOf (by simp))
  have hbody : Derives dialect.grammar rule.body (quote :: (textOfAll pieces ++ quote :: rest))
      (.matched (.chars [quote] :: parts) rest) := by
    rw [hrule.body_eq, Pattern.ifMust, ← List.append_nil parts]
    exact .seqCons hopen (.seqCons (.must hcontent) (.seqNil rest))
  exact ⟨_, .rule (rule?_grammar hrule.mem_rules) hbody, hparts⟩

/-- A row of pieces that fit, between two quotes, is matched whole. -/
theorem derives_quoted (hrule : Quotes rule quote) {pieces : List Piece}
    (h : AllFit quote pieces) :
    ∃ tree : Tree, Derives dialect.grammar (.rule rule.name)
      (quote :: (textOfAll pieces ++ [quote])) (.matched [tree] []) ∧ tree.pieces = pieces :=
  derives_quoted_append hrule h []

end Dialect

end CartLua
