import CartLua.Proofs.Desugar.LiteralValue
import CartLua.Proofs.Lexical.LongBrackets

/-!
# The value of a long string on one line

A long string that must stand on one line is written as a literal in double quotes.  The
literal has the value of the long string: the characters between the brackets, less a line
break right after the opening one, with a line feed for every other line break.
-/

namespace CartLua

open Dialect

namespace OneLine

/-- A text with one line feed in the place of each line break.  Two different line end
characters in a row are one break. -/
def feeds : List Char → List Char
  | [] => []
  | '\r' :: '\n' :: rest => '\n' :: feeds rest
  | '\n' :: '\r' :: rest => '\n' :: feeds rest
  | '\r' :: rest => '\n' :: feeds rest
  | '\n' :: rest => '\n' :: feeds rest
  | c :: rest => c :: feeds rest

/-- The value of a long string between brackets of one level. -/
theorem longStringValue?_eq (level : Nat) (body : List Char) :
    longStringValue? (Terminal.openingBracket level ++ (body ++ Terminal.closingBracket level)) =
      some ((afterBreak? body).getD body) := by
  have hsigns :
      ((List.replicate level '=' ++ '[' :: (body ++ Terminal.closingBracket level)).takeWhile
        (· != '[')).length = level := by
    rw [List.takeWhile_append_of_pos (by simp), List.takeWhile_cons_of_neg (by decide)]
    simp
  have hbody : ((Terminal.openingBracket level ++ (body ++ Terminal.closingBracket level)).drop
      (level + 2)).take ((Terminal.openingBracket level ++
        (body ++ Terminal.closingBracket level)).length - (level + 2) - (level + 2)) = body := by
    rw [List.drop_left' (Terminal.length_openingBracket level)]
    exact List.take_left' (by simp)
  rw [Terminal.openingBracket_append] at hbody ⊢
  rw [longStringValue?, if_pos (by simp), hsigns]
  simp only [hbody]

theorem not_mem_feeds (value : List Char) : '\r' ∉ feeds value := by
  fun_induction feeds value with
  | case1 => exact List.not_mem_nil
  | case6 c rest _ _ hreturn _ ih => exact List.not_mem_cons_of_ne_of_not_mem (Ne.symm hreturn) ih
  | _ => rename_i ih; exact List.not_mem_cons_of_ne_of_not_mem (by decide) ih

theorem escapeMarks_cons (c : Char) (cs : List Char) :
    escapeMarks (c :: cs) = (if c = '\\' ∨ c = '"' then ['\\', c] else [c]) ++ escapeMarks cs := by
  simp [escapeMarks]

/-- The backslashes before marks are no line ends. -/
theorem eq_cons_of_escapeMarks {c : Char} {value more : List Char} (hc : isLineEnd c = true)
    (h : escapeMarks value = c :: more) : ∃ rest, value = c :: rest := by
  cases value with
  | nil => cases h
  | cons d rest =>
      rw [escapeMarks_cons] at h
      split at h
      · obtain rfl : '\\' = c := (List.cons.inj h).1
        cases hc
      · obtain rfl : d = c := (List.cons.inj h).1
        exact ⟨rest, rfl⟩

end OneLine

namespace Piece

/-- The piece that a character of a value is written as in double quotes. -/
def ofChar (c : Char) : Piece :=
  if c = '\n' then escape ['n'] else if c = '\\' ∨ c = '"' then escape [c] else plain c

theorem symbols_ofChar (c : Char) : (ofChar c).symbols = [.char c] := by
  rw [ofChar]
  split
  · rename_i hfeed
    rw [hfeed]
    rfl
  · split
    · rename_i hmark
      rcases hmark with rfl | rfl <;> rfl
    · rfl

theorem fits_ofChar {c : Char} (hc : c ≠ '\r') (rest : List Char) : (ofChar c).Fits '"' rest := by
  rw [ofChar]
  split
  · exact .letter (by decide)
  · rename_i hfeed
    split
    · rename_i hmark
      rcases hmark with rfl | rfl <;> exact .letter (by decide)
    · rename_i hmark
      exact ⟨fun h => hmark (.inl h), fun h => hmark (.inr h),
        by simp [OneLine.isLineEnd, hfeed, hc]⟩

theorem allFit_map_ofChar {value : List Char} (h : '\r' ∉ value) :
    AllFit '"' (value.map ofChar) := by
  induction value with
  | nil => trivial
  | cons c value ih =>
      obtain ⟨hc, hvalue⟩ := List.ne_and_not_mem_of_not_mem_cons h
      exact ⟨fits_ofChar (Ne.symm hc) _, ih hvalue⟩

theorem value_map_ofChar (value : List Char) :
    Piece.value (value.map ofChar) = value.map .char := by
  induction value with
  | nil => rfl
  | cons c value ih => rw [List.map_cons, value_cons, symbols_ofChar, ih, List.map_cons]; rfl

/-- Escaping marks first and then line breaks writes each character of the value as its
piece. -/
theorem escapeBreaks_escapeMarks (value : List Char) :
    OneLine.escapeBreaks (OneLine.escapeMarks value) =
      textOfAll ((OneLine.feeds value).map ofChar) := by
  fun_induction OneLine.feeds value with
  | case1 => rfl
  | case2 rest ih => exact congrArg ('\\' :: 'n' :: ·) ih
  | case3 rest ih => exact congrArg ('\\' :: 'n' :: ·) ih
  | case4 rest hfeed ih =>
      refine (OneLine.escapeBreaks.eq_4 (OneLine.escapeMarks rest) fun more hmore => ?_).trans
        (congrArg ('\\' :: 'n' :: ·) ih)
      obtain ⟨others, hothers⟩ := OneLine.eq_cons_of_escapeMarks rfl hmore
      exact hfeed others hothers
  | case5 rest hreturn ih =>
      refine (OneLine.escapeBreaks.eq_5 (OneLine.escapeMarks rest) fun more hmore => ?_).trans
        (congrArg ('\\' :: 'n' :: ·) ih)
      obtain ⟨others, hothers⟩ := OneLine.eq_cons_of_escapeMarks rfl hmore
      exact hreturn others hothers
  | case6 c rest _ _ hreturn hfeed ih =>
      have hkept : ∀ {d : Char} {s : List Char}, d ≠ '\r' → d ≠ '\n' →
          OneLine.escapeBreaks (d :: s) = d :: OneLine.escapeBreaks s := by
        intro d s hdreturn hdfeed
        exact OneLine.escapeBreaks.eq_6 d s (fun _ h => absurd h hdreturn)
          (fun _ h => absurd h hdfeed) hdreturn hdfeed
      rw [OneLine.escapeMarks_cons, List.map_cons, textOfAll_cons, ← ih, ofChar, if_neg hfeed]
      split
      · exact (hkept (by decide) (by decide)).trans (congrArg ('\\' :: ·) (hkept hreturn hfeed))
      · exact hkept hreturn hfeed

end Piece

namespace Dialect

variable {dialect : Dialect}

/-- A long string is matched, under every limit, just when it is one long bracket. -/
theorem isMatch_longString_iff {limit : Int} {source : Source} :
    ((dialect.parser limit).isMatch longString.name source).1 = .ok true ↔
      ∃ level body, Terminal.ClosesFirst level body ∧ source.chars =
        Terminal.openingBracket level ++ (body ++ Terminal.closingBracket level) := by
  have hrule : longString ∈ dialect.rules := by simp [rules, lexicalRules]
  have hstays : (Pattern.rule longString.name).staysIn dialect 16 = true := by
    cases dialect <;> decide
  rw [isMatch_iff (List.mem_map_of_mem hrule) hstays (by decide)]
  constructor
  · rintro ⟨tree, h⟩
    obtain ⟨parts, -, hbody⟩ := derives_of_rule hrule h
    obtain ⟨level, body, hfirst, hchars⟩ := takes_longBracket.mp ⟨parts, hbody⟩
    rw [List.append_nil] at hchars
    exact ⟨level, body, hfirst, hchars⟩
  · rintro ⟨level, body, hfirst, hchars⟩
    rw [← List.append_nil (body ++ Terminal.closingBracket level)] at hchars
    obtain ⟨parts, hbody⟩ := takes_longBracket.mpr ⟨level, body, hfirst, hchars⟩
    exact ⟨_, .rule (rule?_grammar hrule) hbody⟩

end Dialect

/-- A long string that is written for one line is a literal in double quotes.  It has the value
of the long string, with one line feed for each line break. -/
theorem quoting_keeps_long_string {dialect : Dialect} {limit : Int} {source : Source}
    (hmatch : ((dialect.parser limit).isMatch "long_string" source).1 = .ok true) :
    ∃ level body value tree,
      source.chars =
        Terminal.openingBracket level ++ (body ++ Terminal.closingBracket level) ∧
      OneLine.longStringValue? source.chars = some value ∧
      Unbroken (OneLine.quote value) ∧
      ((dialect.parser limit).isMatch "double_quote_string"
        (source.replaced (OneLine.quote value))).1 = .ok true ∧
      Derives dialect.grammar (.rule "double_quote_string") (OneLine.quote value)
        (.matched [tree] []) ∧
      tree.value = (OneLine.feeds ((OneLine.afterBreak? body).getD body)).map .char := by
  obtain ⟨level, body, -, hchars⟩ := Dialect.isMatch_longString_iff.mp hmatch
  have hfits : Piece.AllFit '"'
      ((OneLine.feeds ((OneLine.afterBreak? body).getD body)).map Piece.ofChar) :=
    Piece.allFit_map_ofChar (OneLine.not_mem_feeds _)
  obtain ⟨tree, htree, hpieces⟩ := @Dialect.derives_quoted dialect _ _ .double _ hfits
  rw [← Piece.escapeBreaks_escapeMarks] at htree
  refine ⟨level, body, _, tree, hchars, ?_, OneLine.unbroken_quote _, ?_, htree, ?_⟩
  · rw [hchars, OneLine.longStringValue?_eq]
  · refine (Dialect.isMatch_quoted_iff .double).mpr ⟨tree, ?_⟩
    rw [Source.replaced, Source.chars_ofChars]
    exact htree
  · rw [Tree.value, hpieces, Piece.value_map_ofChar]

/-- A long string with a leading line break, a break of two characters, and marks. -/
theorem quoting_keeps_long_string_breaks :
    ∃ level body value tree,
      "[=[\r\n\\\"]]\n\r\n]=]".toList =
        Terminal.openingBracket level ++ (body ++ Terminal.closingBracket level) ∧
      OneLine.longStringValue? "[=[\r\n\\\"]]\n\r\n]=]".toList = some value ∧
      Unbroken (OneLine.quote value) ∧
      ((Dialect.pico8.parser 0).isMatch "double_quote_string"
        ((Source.ofChars "[=[\r\n\\\"]]\n\r\n]=]".toList "cart").replaced
          (OneLine.quote value))).1 = .ok true ∧
      Derives Dialect.pico8.grammar (.rule "double_quote_string") (OneLine.quote value)
        (.matched [tree] []) ∧
      tree.value = (OneLine.feeds ((OneLine.afterBreak? body).getD body)).map .char := by
  have hmatch : ((Dialect.pico8.parser 0).isMatch longString.name
      (Source.ofChars "[=[\r\n\\\"]]\n\r\n]=]".toList "cart")).1 = .ok true :=
    Dialect.isMatch_longString_iff.mpr ⟨1, "\r\n\\\"]]\n\r\n".toList, by decide, by decide⟩
  exact quoting_keeps_long_string hmatch

end CartLua
