import CartLua.Proofs.Lexical.QuotedLiterals

/-!
# The value of a literal on one line

A quoted literal that is written for one line is matched by the rule of the literal it is
written for.  It has the value of that literal unless a blank is lost: the reader of quoted
literals drops all white space after a skipping escape, but only the blanks of the language
belong to the escape.
-/

namespace CartLua

open Dialect

/-! ## Values -/

/-- What a string is made of: characters, and bytes and code points that are given by their
numbers. -/
inductive Symbol
  | char (c : Char)
  | byte (number : Nat)
  | codePoint (number : Nat)
  deriving DecidableEq, Repr

namespace Symbol

/-- The value of a hexadecimal digit. -/
def digit (c : Char) : Nat :=
  if c.isDigit then c.toNat - '0'.toNat
  else if 'a' ≤ c then c.toNat - 'a'.toNat + 10
  else c.toNat - 'A'.toNat + 10

/-- The number that some digits stand for. -/
def number (base : Nat) (digits : List Char) : Nat :=
  digits.foldl (fun n c => n * base + digit c) 0

/-- The character that the escape of a letter or a mark stands for. -/
def letter : Char → Char
  | 'a' => '\x07'
  | 'b' => '\x08'
  | 'f' => '\x0c'
  | 'n' => '\n'
  | 'r' => '\r'
  | 't' => '\t'
  | 'v' => '\x0b'
  | mark => mark

/-- What the text of an escape stands for. -/
def ofEscape : List Char → List Symbol
  | [] => []
  | 'z' :: _ => []
  | 'x' :: digits => [byte (number 16 digits)]
  | 'u' :: digits => [codePoint (number 16 (digits.drop 1).dropLast)]
  | c :: more =>
      if OneLine.isLineEnd c then [char '\n']
      else if c.isDigit then [byte (number 10 (c :: more))]
      else [char (letter c)]

end Symbol

/-- What a piece of a literal stands for. -/
def Piece.symbols : Piece → List Symbol
  | plain c => [.char c]
  | escape text => Symbol.ofEscape text

/-- The value of pieces in a row. -/
def Piece.value (pieces : List Piece) : List Symbol := pieces.flatMap symbols

/-- The value of a literal. -/
def Tree.value (tree : Tree) : List Symbol := Piece.value tree.pieces

/-! ## Pieces on one line -/

namespace Piece

/-- The text of an escape on one line. -/
def flatEscape : List Char → List Char
  | [] => []
  | 'z' :: _ => ['z']
  | c :: more => if OneLine.isLineEnd c then ['n'] else c :: more

theorem flatEscape_cons {c : Char} {more : List Char} (hz : c ≠ 'z')
    (hend : OneLine.isLineEnd c = false) : flatEscape (c :: more) = c :: more := by
  rw [flatEscape, if_neg (by simp [hend])]
  exact hz

/-- Pieces on one line.  While `skipping`, blanks are dropped. -/
def flatten : (skipping : Bool) → List Piece → List Piece
  | _, [] => []
  | skipping, plain c :: pieces =>
      if skipping && Text.isBlank c then flatten true pieces else plain c :: flatten false pieces
  | _, escape text :: pieces =>
      escape (flatEscape text) :: flatten (text.head? == some 'z') pieces

/-- Whether white space that is no part of it stands right after a skipping escape. -/
def LosesBlank (pieces : List Piece) : Prop :=
  ∃ blanks c, Text.isBlank c = true ∧ [escape ('z' :: blanks), plain c] <:+: pieces

end Piece

/-- The blanks of the language are white space. -/
theorem Dialect.isBlank_of_mem_spaces {c : Char} (hc : c ∈ spaces.toList) :
    Text.isBlank c = true := by
  have hall : ∀ c ∈ spaces.toList, Text.isBlank c = true := forall_mem_of_all (by decide)
  exact hall c hc

namespace OneLine

variable {place : Place} {c : Char} {cs s : List Char}

/-- A character that opens no escape and ends no line is kept, unless it is skipped. -/
theorem flatQuoted_plain (hplace : place ≠ .escape) (hc : c ≠ '\\') (hend : isLineEnd c = false)
    (hkept : place = .blanks → Text.isBlank c = false) :
    flatQuoted place (c :: s) = c :: flatQuoted .plain s := by
  have hnot : c ≠ '\n' ∧ c ≠ '\r' := by simpa [isLineEnd] using hend
  have hplain : plainStep c = ([c], .plain) := if_neg hc
  cases place with
  | escape => exact absurd rfl hplace
  | plain => simp only [flatQuoted, flatStep, hplain, List.singleton_append]
  | blanks =>
      simp only [flatQuoted, flatStep, hkept rfl, Bool.false_eq_true, if_false, hplain,
        List.singleton_append]
  | afterReturn => simp only [flatQuoted, flatStep, if_neg hnot.1, hplain, List.singleton_append]
  | afterFeed => simp only [flatQuoted, flatStep, if_neg hnot.2, hplain, List.singleton_append]

theorem flatQuoted_blanks (hcs : ∀ c ∈ cs, Text.isBlank c = true) :
    flatQuoted .blanks (cs ++ s) = flatQuoted .blanks s := by
  induction cs with
  | nil => rfl
  | cons c cs ih =>
      obtain ⟨hc, hcs⟩ := List.forall_mem_cons.mp hcs
      simp only [List.cons_append, flatQuoted, flatStep, if_pos hc, List.nil_append]
      exact ih hcs

/-- Ordinary characters are kept together with the one that a backslash is before. -/
theorem flatQuoted_escape (hz : c ≠ 'z') (hend : isLineEnd c = false)
    (hcs : ∀ d ∈ cs, ordinary d = true) :
    flatQuoted .escape (c :: (cs ++ s)) = '\\' :: c :: (cs ++ flatQuoted .plain s) := by
  have hnot : c ≠ '\n' ∧ c ≠ '\r' := by simpa [isLineEnd] using hend
  have hrest : flatQuoted .plain (cs ++ s) = cs ++ flatQuoted .plain s := by
    induction cs with
    | nil => rfl
    | cons d cs ih =>
        obtain ⟨hordinary, hcs⟩ := List.forall_mem_cons.mp hcs
        obtain ⟨hbackslash, -, hd⟩ := ordinary_iff.mp hordinary
        have hkept : flatQuoted .plain (d :: (cs ++ s)) = d :: flatQuoted .plain (cs ++ s) :=
          flatQuoted_plain (by decide) hbackslash hd (by simp)
        rw [List.cons_append, hkept, ih hcs, List.cons_append]
  simp only [flatQuoted, flatStep, if_neg hz, if_neg hnot.1, if_neg hnot.2, hrest,
    List.cons_append, List.nil_append]

end OneLine

namespace Escape

variable {text rest : List Char}

/-- The text of an escape on one line is that of the same escape, or of a line feed. -/
theorem flat {rest' : List Char} (h : Escape text rest)
    (hdigits : text.head? ≠ some 'z' → StartsOutside digits.toList rest →
      StartsOutside digits.toList rest')
    (hspaces : text.head? = some 'z' → StartsOutside spaces.toList rest') :
    Escape (Piece.flatEscape text) rest' := by
  cases h with
  | hexByte hhigh hlow => exact .hexByte hhigh hlow
  | decimalByte hne hnumber hlength hnext =>
      cases text with
      | nil => exact absurd rfl hne
      | cons d number =>
          obtain ⟨-, hz, hend⟩ := ordinary_iff.mp (of_mem_digits d (hnumber d List.mem_cons_self)).2
          rw [Piece.flatEscape_cons hz hend]
          exact .decimalByte hne hnumber hlength fun h => hdigits (by simpa using hz) (hnext h)
  | codePoint hne hnumber => exact .codePoint hne hnumber
  | @letter c _ hc =>
      obtain ⟨-, -, -, hz, hend⟩ := of_mem_escapeLetters c hc
      rw [Piece.flatEscape_cons hz hend]
      exact .letter hc
  | lineBreak hbreak =>
      have hn : Escape ['n'] rest' := .letter (by decide)
      rcases OneLine.afterBreak?_append_eq_some_iff.mp hbreak with
        rfl | rfl | ⟨rfl, -⟩ | ⟨rfl, -⟩ <;> exact hn
  | skipSpaces _ _ => exact .skipSpaces nofun (hspaces rfl)

/-- An escape is written on one line as its own text is. -/
theorem flatQuoted_eq (h : Escape text rest) :
    ∃ place, place ≠ .escape ∧ (place = .blanks ↔ text.head? = some 'z') ∧
      OneLine.flatQuoted .escape (text ++ rest) =
        '\\' :: (Piece.flatEscape text ++ OneLine.flatQuoted place rest) := by
  have hordinary : ∀ {c : Char} {cs : List Char}, c ≠ 'z' → OneLine.isLineEnd c = false →
      (∀ d ∈ cs, ordinary d = true) →
        ∃ place, place ≠ .escape ∧ (place = .blanks ↔ (c :: cs).head? = some 'z') ∧
          OneLine.flatQuoted .escape (c :: cs ++ rest) =
          '\\' :: (Piece.flatEscape (c :: cs) ++ OneLine.flatQuoted place rest) := by
    intro c cs hz hend hcs
    refine ⟨.plain, by decide, by simpa using hz, ?_⟩
    rw [List.cons_append, OneLine.flatQuoted_escape hz hend hcs, Piece.flatEscape_cons hz hend,
      List.cons_append]
  cases h with
  | @hexByte high low _ hhigh hlow =>
      exact hordinary (by decide) (by decide) (List.forall_mem_cons.mpr
        ⟨ordinary_of_mem_hexDigits high hhigh,
          List.forall_mem_singleton.mpr (ordinary_of_mem_hexDigits low hlow)⟩)
  | decimalByte hne hnumber hlength hnext =>
      cases text with
      | nil => exact absurd rfl hne
      | cons d number =>
          obtain ⟨hd, hnumber⟩ := List.forall_mem_cons.mp hnumber
          obtain ⟨-, hz, hend⟩ := ordinary_iff.mp (of_mem_digits d hd).2
          exact hordinary hz hend fun e he => (of_mem_digits e (hnumber e he)).2
  | @codePoint number _ hne hnumber =>
      refine hordinary (by decide) (by decide) fun d hd => ?_
      simp only [List.mem_cons, List.mem_append, List.not_mem_nil, or_false] at hd
      rcases hd with rfl | hd | rfl
      · decide
      · exact ordinary_of_mem_hexDigits d (hnumber d hd)
      · decide
  | @letter c _ hc =>
      obtain ⟨-, -, -, hz, hend⟩ := of_mem_escapeLetters c hc
      exact hordinary hz hend (by simp)
  | lineBreak hbreak =>
      rcases OneLine.afterBreak?_append_eq_some_iff.mp hbreak with
        rfl | rfl | ⟨rfl, -⟩ | ⟨rfl, -⟩
      · exact ⟨.plain, by decide, by decide, rfl⟩
      · exact ⟨.plain, by decide, by decide, rfl⟩
      · exact ⟨.afterReturn, by decide, by decide, rfl⟩
      · exact ⟨.afterFeed, by decide, by decide, rfl⟩
  | skipSpaces hblanks _ =>
      refine ⟨.blanks, by decide, by simp, ?_⟩
      have hskipped :=
        @OneLine.flatQuoted_blanks _ rest fun c hc => isBlank_of_mem_spaces (hblanks c hc)
      exact congrArg ('\\' :: 'z' :: ·) hskipped

/-- No escape on one line has a line end. -/
theorem unbroken_flat (h : Escape text rest) : Unbroken (Piece.flatEscape text) := by
  have hordinary : ∀ {c : Char}, ordinary c = true → OneLine.isLineEnd c = false :=
    fun hc => (ordinary_iff.mp hc).2.2
  cases h with
  | @hexByte high low _ hhigh hlow =>
      have hhex := fun d hd => hordinary (ordinary_of_mem_hexDigits d hd)
      exact .cons rfl (.cons (hhex high hhigh) (.cons (hhex low hlow) .nil))
  | decimalByte hne hnumber hlength hnext =>
      cases text with
      | nil => exact absurd rfl hne
      | cons d number =>
          obtain ⟨-, hz, hend⟩ := ordinary_iff.mp (of_mem_digits d (hnumber d List.mem_cons_self)).2
          rw [Piece.flatEscape_cons hz hend]
          exact fun e he => hordinary (of_mem_digits e (hnumber e he)).2
  | @codePoint number _ hne hnumber =>
      have hdigits : Unbroken number :=
        fun d hd => hordinary (ordinary_of_mem_hexDigits d (hnumber d hd))
      exact .cons rfl (.cons rfl (hdigits.append (.cons rfl .nil)))
  | @letter c _ hc =>
      obtain ⟨-, -, -, hz, hend⟩ := of_mem_escapeLetters c hc
      rw [Piece.flatEscape_cons hz hend]
      exact .cons hend .nil
  | lineBreak hbreak =>
      have hn : Unbroken ['n'] := .cons rfl .nil
      rcases OneLine.afterBreak?_append_eq_some_iff.mp hbreak with
        rfl | rfl | ⟨rfl, -⟩ | ⟨rfl, -⟩ <;> exact hn
  | skipSpaces _ _ => exact .cons rfl .nil

end Escape

namespace Piece

variable {rule : Rule} {quote : Char} {skipping : Bool} {pieces : List Piece}

/-- The reader of quoted literals writes the text of the pieces on one line. -/
theorem flatQuoted_textOfAll (hrule : Quotes rule quote) (h : AllFit quote pieces)
    {place : OneLine.Place} (hplace : place ≠ .escape) :
    OneLine.flatQuoted place (textOfAll pieces ++ [quote]) =
      textOfAll (flatten (place == .blanks) pieces) ++ [quote] := by
  induction pieces generalizing place with
  | nil =>
      exact OneLine.flatQuoted_plain hplace hrule.ne_backslash hrule.isLineEnd_eq_false
        fun _ => hrule.isBlank_eq_false
  | cons piece pieces ih =>
      obtain ⟨hfits, hall⟩ := h
      rw [textOfAll_cons, List.append_assoc]
      cases piece with
      | plain c =>
          rw [flatten]
          split
          · rename_i hskipped
            rw [Bool.and_eq_true, beq_iff_eq] at hskipped
            obtain ⟨rfl, hblank⟩ := hskipped
            have hdropped := @OneLine.flatQuoted_blanks [c] (textOfAll pieces ++ [quote])
              (List.forall_mem_singleton.mpr hblank)
            exact hdropped.trans (ih hall hplace)
          · rename_i hkept
            have hblank : place = .blanks → Text.isBlank c = false := by
              rintro rfl
              simpa using hkept
            have hplain := @OneLine.flatQuoted_plain place c (textOfAll pieces ++ [quote]) hplace
              hfits.1 hfits.2.2 hblank
            exact hplain.trans (congrArg (c :: ·) (ih hall (by decide)))
      | escape text =>
          -- The place after the escape says whether the pieces after it are skipped at first.
          obtain ⟨next, hnext, hskips, hwritten⟩ := hfits.flatQuoted_eq
          have hskipping : (next == .blanks) = (text.head? == some 'z') := by
            rw [Bool.eq_iff_iff, beq_iff_eq, beq_iff_eq]
            exact hskips
          have hopen := OneLine.flatQuoted_backslash hplace (text ++ (textOfAll pieces ++ [quote]))
          refine hopen.trans (hwritten.trans ?_)
          rw [ih hall hnext, hskipping, flatten, textOfAll_cons, Piece.text, List.append_assoc,
            List.cons_append]

/-- Pieces that are all kept begin as they do. -/
theorem head?_flatten_false (pieces : List Piece) (s : List Char) :
    (textOfAll (flatten false pieces) ++ s).head? = (textOfAll pieces ++ s).head? := by
  cases pieces with
  | nil => rfl
  | cons piece pieces => cases piece <;> rfl

/-- After a skipping escape no blank is left. -/
theorem startsOutside_flatten_true (hrule : Quotes rule quote) (pieces : List Piece) :
    StartsOutside spaces.toList (textOfAll (flatten true pieces) ++ [quote]) := by
  have hspace : ∀ {c : Char}, Text.isBlank c = false → c ∉ spaces.toList := by
    intro c hc hmem
    rw [isBlank_of_mem_spaces hmem] at hc
    cases hc
  induction pieces with
  | nil => exact startsOutside_cons.mpr (hspace hrule.isBlank_eq_false)
  | cons piece pieces ih =>
      cases piece with
      | plain c =>
          rw [flatten, Bool.true_and]
          split
          · exact ih
          · rename_i hkept
            exact startsOutside_cons.mpr (hspace (Bool.eq_false_iff.mpr hkept))
      | escape text => exact startsOutside_cons.mpr (by decide)

/-- Pieces on one line fit what follows them there. -/
theorem allFit_flatten (hrule : Quotes rule quote) (h : AllFit quote pieces) :
    AllFit quote (flatten skipping pieces) := by
  induction pieces generalizing skipping with
  | nil => trivial
  | cons piece pieces ih =>
      obtain ⟨hfits, hall⟩ := h
      cases piece with
      | plain c =>
          rw [flatten]
          split
          · exact ih hall
          · exact ⟨hfits, ih hall⟩
      | escape text =>
          refine ⟨hfits.flat ?_ ?_, ih hall⟩
          · intro hz hdigits
            rw [beq_eq_false_iff_ne.mpr hz]
            rw [StartsOutside, head?_flatten_false]
            exact hdigits
          · intro hz
            rw [beq_iff_eq.mpr hz]
            exact startsOutside_flatten_true hrule pieces

theorem unbroken_flatten (hrule : Quotes rule quote) (h : AllFit quote pieces) :
    Unbroken (textOfAll (flatten skipping pieces) ++ [quote]) := by
  induction pieces generalizing skipping with
  | nil => exact .cons hrule.isLineEnd_eq_false .nil
  | cons piece pieces ih =>
      obtain ⟨hfits, hall⟩ := h
      cases piece with
      | plain c =>
          rw [flatten]
          split
          · exact ih hall
          · exact .cons hfits.2.2 (ih hall)
      | escape text =>
          rw [flatten, textOfAll_cons, List.append_assoc]
          exact .cons rfl (hfits.unbroken_flat.append (ih hall))

/-! ## Values on one line -/

theorem value_cons (piece : Piece) (pieces : List Piece) :
    value (piece :: pieces) = piece.symbols ++ value pieces := rfl

/-- An escape on one line stands for the same as the escape. -/
theorem symbols_flatEscape (text : List Char) :
    (escape (flatEscape text)).symbols = (escape text).symbols := by
  cases text with
  | nil => rfl
  | cons c more =>
      by_cases hz : c = 'z'
      · subst hz
        rfl
      by_cases hend : OneLine.isLineEnd c = true
      · have hc : c = '\n' ∨ c = '\r' := by simpa [OneLine.isLineEnd] using hend
        rcases hc with rfl | rfl <;> rfl
      · rw [flatEscape_cons hz (Bool.eq_false_iff.mpr hend)]

/-- Whether a blank is dropped when pieces are written on one line. -/
def Drops : (skipping : Bool) → List Piece → Prop
  | _, [] => False
  | skipping, plain c :: pieces =>
      (skipping = true ∧ Text.isBlank c = true) ∨ Drops false pieces
  | _, escape text :: pieces => Drops (text.head? == some 'z') pieces

theorem value_flatten (h : ¬Drops skipping pieces) :
    value (flatten skipping pieces) = value pieces := by
  induction pieces generalizing skipping with
  | nil => rfl
  | cons piece pieces ih =>
      cases piece with
      | plain c =>
          obtain ⟨hkept, hothers⟩ := not_or.mp h
          rw [flatten, if_neg (by simpa using hkept), value_cons, value_cons, ih hothers]
      | escape text => rw [flatten, value_cons, value_cons, symbols_flatEscape, ih h]

theorem length_value_flatten_le (skipping : Bool) (pieces : List Piece) :
    (value (flatten skipping pieces)).length ≤ (value pieces).length := by
  induction pieces generalizing skipping with
  | nil => exact Nat.le_refl _
  | cons piece pieces ih =>
      cases piece with
      | plain c =>
          rw [flatten]
          split
          · exact Nat.le_succ_of_le (ih true)
          · exact Nat.succ_le_succ (ih false)
      | escape text =>
          rw [flatten, value_cons, value_cons, symbols_flatEscape, List.length_append,
            List.length_append]
          exact Nat.add_le_add_left (ih _) _

/-- Where a blank is dropped, the value is shorter. -/
theorem length_value_flatten_lt (h : Drops skipping pieces) :
    (value (flatten skipping pieces)).length < (value pieces).length := by
  induction pieces generalizing skipping with
  | nil => cases h
  | cons piece pieces ih =>
      cases piece with
      | plain c =>
          rw [flatten]
          split
          · exact Nat.lt_succ_of_le (length_value_flatten_le true pieces)
          · rename_i hkept
            have hothers : Drops false pieces := h.resolve_left (by simpa using hkept)
            exact Nat.succ_lt_succ (ih hothers)
      | escape text =>
          rw [flatten, value_cons, value_cons, symbols_flatEscape, List.length_append,
            List.length_append]
          exact Nat.add_lt_add_left (ih h) _

/-- The value is kept just when no blank is dropped. -/
theorem value_flatten_iff :
    value (flatten skipping pieces) = value pieces ↔ ¬Drops skipping pieces := by
  refine ⟨fun heq hdrops => ?_, value_flatten⟩
  exact Nat.lt_irrefl _ (heq ▸ length_value_flatten_lt hdrops)

theorem losesBlank_cons_plain {c : Char} : LosesBlank (plain c :: pieces) ↔ LosesBlank pieces := by
  simp [LosesBlank, List.infix_cons_iff]

theorem losesBlank_cons_escape {text : List Char} : LosesBlank (escape text :: pieces) ↔
    (text.head? = some 'z' ∧ ∃ c, Text.isBlank c = true ∧ pieces.head? = some (plain c)) ∨
      LosesBlank pieces := by
  have hhead : ∀ c, [plain c] <+: pieces ↔ pieces.head? = some (plain c) := by
    intro c
    cases pieces <;> simp [eq_comm]
  simp only [LosesBlank, List.infix_cons_iff, List.cons_prefix_cons, hhead, escape.injEq]
  constructor
  · rintro ⟨blanks, c, hc, ⟨rfl, hnext⟩ | hothers⟩
    · exact .inl ⟨rfl, c, hc, hnext⟩
    · exact .inr ⟨blanks, c, hc, hothers⟩
  · rintro (⟨hz, c, hc, hnext⟩ | ⟨blanks, c, hc, hothers⟩)
    · obtain ⟨blanks, rfl⟩ := List.head?_eq_some_iff.mp hz
      exact ⟨blanks, c, hc, .inl ⟨rfl, hnext⟩⟩
    · exact ⟨blanks, c, hc, .inr hothers⟩

/-- A blank is dropped where it follows a skipping escape. -/
theorem drops_iff : Drops skipping pieces ↔
    (skipping = true ∧ ∃ c, Text.isBlank c = true ∧ pieces.head? = some (plain c)) ∨
      LosesBlank pieces := by
  induction pieces generalizing skipping with
  | nil => simp [Drops, LosesBlank]
  | cons piece pieces ih =>
      cases piece with
      | plain c => simp [Drops, ih, losesBlank_cons_plain]
      | escape text => simp [Drops, ih, losesBlank_cons_escape]

end Piece

namespace Dialect

open Piece

variable {dialect : Dialect} {rule : Rule} {quote : Char} {limit : Int} {source : Source}

/-- A literal with a line end is written as its pieces on one line, between its quotes. -/
theorem flatLexeme_quoted (hrule : Quotes rule quote) {pieces : List Piece}
    (h : AllFit quote pieces)
    (hbreak : ∃ c ∈ quote :: (textOfAll pieces ++ [quote]), OneLine.isLineEnd c = true) :
    Desugar.flatLexeme .string (quote :: (textOfAll pieces ++ [quote])) =
      .ok (some (quote :: (textOfAll (flatten false pieces) ++ [quote]))) := by
  have hbracket : (quote :: (textOfAll pieces ++ [quote])).head? ≠ some '[' := by
    cases hrule <;> simp
  have hopen : OneLine.flatQuoted .plain (quote :: (textOfAll pieces ++ [quote])) =
      quote :: OneLine.flatQuoted .plain (textOfAll pieces ++ [quote]) :=
    OneLine.flatQuoted_plain (by decide) hrule.ne_backslash hrule.isLineEnd_eq_false (by simp)
  rw [Desugar.flatLexeme, OneLine.flatString?, if_pos (List.any_eq_true.mpr hbreak),
    if_neg hbracket, hopen, flatQuoted_textOfAll hrule h (by decide)]
  · rfl
  · simp

/-- A quoted literal is matched, under every limit, just when it is derived. -/
theorem isMatch_quoted_iff (hrule : Quotes rule quote) :
    ((dialect.parser limit).isMatch rule.name source).1 = .ok true ↔
      ∃ tree, Derives dialect.grammar (.rule rule.name) source.chars (.matched [tree] []) := by
  have hstays : (Pattern.rule rule.name).staysIn dialect 16 = true := by
    cases hrule <;> cases dialect <;> decide
  exact isMatch_iff (List.mem_map_of_mem hrule.mem_rules) hstays (by decide)

end Dialect

/-- A quoted literal that spans lines is written on one line as a literal of the same kind.  It
keeps its value just when no white space, beyond the blanks of the language, follows a skipping
escape. -/
theorem flattening_keeps_literal {dialect : Dialect} {rule : Rule} {quote : Char}
    (hrule : Quotes rule quote) {limit : Int} {source : Source}
    (hmatch : ((dialect.parser limit).isMatch rule.name source).1 = .ok true)
    (hbreak : ∃ c ∈ source.chars, OneLine.isLineEnd c = true) :
    ∃ flat tree other, Desugar.flatLexeme .string source.chars = .ok (some flat) ∧
      Unbroken flat ∧
      ((dialect.parser limit).isMatch rule.name (source.replaced flat)).1 = .ok true ∧
      Derives dialect.grammar (.rule rule.name) source.chars (.matched [tree] []) ∧
      Derives dialect.grammar (.rule rule.name) flat (.matched [other] []) ∧
      (other.value = tree.value ↔ ¬Piece.LosesBlank tree.pieces) := by
  obtain ⟨tree, htree⟩ := (Dialect.isMatch_quoted_iff hrule).mp hmatch
  obtain ⟨hall, htext⟩ := Dialect.of_quoted hrule htree
  have hflat : Piece.AllFit quote (Piece.flatten false tree.pieces) :=
    Piece.allFit_flatten hrule hall
  obtain ⟨other, hother, hpieces⟩ := @Dialect.derives_quoted dialect _ _ hrule _ hflat
  refine ⟨_, tree, other, ?_, ?_, ?_, htree, hother, ?_⟩
  · rw [htext] at hbreak ⊢
    exact Dialect.flatLexeme_quoted hrule hall hbreak
  · exact .cons hrule.isLineEnd_eq_false (Piece.unbroken_flatten hrule hall)
  · refine (Dialect.isMatch_quoted_iff hrule).mpr ⟨other, ?_⟩
    rw [Source.replaced, Source.chars_ofChars]
    exact hother
  · rw [Tree.value, Tree.value, hpieces, Piece.value_flatten_iff, Piece.drops_iff]
    simp

/-- An escaped line feed becomes the escape of a line feed. -/
theorem flattening_keeps_literal_feed :
    ∃ flat tree other,
      Desugar.flatLexeme .string ['"', 'a', '\\', '\n', '"'] = .ok (some flat) ∧
      Unbroken flat ∧
      ((Dialect.pico8.parser 0).isMatch "double_quote_string"
        ((Source.ofChars ['"', 'a', '\\', '\n', '"'] "cart").replaced flat)).1 = .ok true ∧
      Derives Dialect.pico8.grammar (.rule "double_quote_string") ['"', 'a', '\\', '\n', '"']
        (.matched [tree] []) ∧
      Derives Dialect.pico8.grammar (.rule "double_quote_string") flat (.matched [other] []) ∧
      (other.value = tree.value ↔ ¬Piece.LosesBlank tree.pieces) := by
  have hfits : Piece.AllFit '"' [.plain 'a', .escape ['\n']] :=
    ⟨⟨by decide, by decide, by decide⟩, .lineBreak rfl, trivial⟩
  obtain ⟨tree, htree, -⟩ := @Dialect.derives_quoted .pico8 _ _ .double _ hfits
  have hmatch : ((Dialect.pico8.parser 0).isMatch doubleQuoteString.name
      (Source.ofChars ['"', 'a', '\\', '\n', '"'] "cart")).1 = .ok true :=
    (Dialect.isMatch_quoted_iff .double).mpr ⟨tree, htree⟩
  exact flattening_keeps_literal .double hmatch ⟨'\n', by decide, rfl⟩

/-- A space that does not break the line is lost after a skipping escape. -/
theorem flattening_may_lose_a_blank :
    ∃ flat tree other,
      Desugar.flatLexeme .string ['"', '\\', 'z', '\n', '\u00a0', 'a', '"'] = .ok (some flat) ∧
      ((Dialect.pico8.parser 0).isMatch "double_quote_string"
        (Source.ofChars ['"', '\\', 'z', '\n', '\u00a0', 'a', '"'] "cart")).1 = .ok true ∧
      Derives Dialect.pico8.grammar (.rule "double_quote_string")
        ['"', '\\', 'z', '\n', '\u00a0', 'a', '"'] (.matched [tree] []) ∧
      Derives Dialect.pico8.grammar (.rule "double_quote_string") flat (.matched [other] []) ∧
      tree.value = [.char '\u00a0', .char 'a'] ∧ other.value = [.char 'a'] := by
  have hfits : Piece.AllFit '"' [.escape ['z', '\n'], .plain '\u00a0', .plain 'a'] :=
    ⟨.skipSpaces (List.forall_mem_singleton.mpr (by decide)) (by decide),
      ⟨by decide, by decide, by decide⟩, ⟨by decide, by decide, by decide⟩, trivial⟩
  have hflat : Piece.AllFit '"' [.escape ['z'], .plain 'a'] :=
    ⟨.skipSpaces nofun (by decide), ⟨by decide, by decide, by decide⟩, trivial⟩
  obtain ⟨tree, htree, hpieces⟩ := @Dialect.derives_quoted .pico8 _ _ .double _ hfits
  obtain ⟨other, hother, hkept⟩ := @Dialect.derives_quoted .pico8 _ _ .double _ hflat
  refine ⟨['"', '\\', 'z', 'a', '"'], tree, other, rfl,
    (Dialect.isMatch_quoted_iff .double).mpr ⟨tree, htree⟩, htree, hother, ?_, ?_⟩
  · rw [Tree.value, hpieces]
    rfl
  · rw [Tree.value, hkept]
    rfl

end CartLua
