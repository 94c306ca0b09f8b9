import CartLua.Proofs.Desugar.LongStringValue
import CartLua.Proofs.Items.Desugared

/-!
# String literals

A string literal is in quotes or in long brackets.  Where it ends does not depend on what comes
after it, so a literal may be moved to another place.  Written on one line it is a literal again.
-/

namespace CartLua

open Dialect Terminal

/-- Whether a text is a string literal. -/
inductive IsLiteral : List Char → Prop
  | quoted {rule : Rule} {quote : Char} {pieces : List Piece} (quotes : Quotes rule quote)
      (fits : Piece.AllFit quote pieces) :
      IsLiteral (quote :: (Piece.textOfAll pieces ++ [quote]))
  | long {level : Nat} {body : List Char} (closes : ClosesFirst level body) :
      IsLiteral (openingBracket level ++ (body ++ closingBracket level))

namespace Dialect

variable {dialect : Dialect} {s rest : List Char}

theorem mem_literalString : literalString ∈ dialect.rules := by simp [rules, lexicalRules]

theorem mem_longString : longString ∈ dialect.rules := by simp [rules, lexicalRules]

/-- What a rule of quoted literals takes. -/
theorem takes_quoted {rule : Rule} {quote : Char} (hrule : Quotes rule quote) :
    Takes dialect.grammar (.call rule.name) s rest ↔ ∃ pieces, Piece.AllFit quote pieces ∧
      s = quote :: (Piece.textOfAll pieces ++ quote :: rest) := by
  constructor
  · rintro ⟨parts, h⟩
    obtain ⟨inner, rfl, hbody⟩ := derives_of_call hrule.mem_rules h
    obtain ⟨hall, hs⟩ := of_quoted hrule (.rule (rule?_grammar hrule.mem_rules) hbody)
    exact ⟨_, hall, hs⟩
  · rintro ⟨pieces, hall, rfl⟩
    obtain ⟨tree, htree, -⟩ := @derives_quoted_append dialect _ _ hrule _ hall rest
    exact ⟨_, .ref (isLinked_of_mem hrule.mem_rules) htree⟩

theorem failed_quoted_iff {rule : Rule} {quote : Char} (hrule : Quotes rule quote) :
    Derives dialect.grammar (.call rule.name) s .failed ↔ StartsOutside [quote] s := by
  rw [failed_call_iff hrule.mem_rules, hrule.body_eq]
  exact failed_ifMust_iff.trans failed_oneOf_iff

/-- A quote begins a string literal, or the text is in error. -/
theorem not_quote_of_failed {c : Char}
    (h : Derives dialect.grammar (.call "literal_string") (c :: s) .failed) :
    c ≠ '"' ∧ c ≠ '\'' := by
  obtain ⟨hdouble, hothers⟩ := failed_choice_cons_iff.mp ((failed_call_iff mem_literalString).mp h)
  obtain ⟨hsingle, -⟩ := failed_choice_cons_iff.mp hothers
  have hfirst := (failed_quoted_iff .double).mp hdouble
  have hsecond := (failed_quoted_iff .single).mp hsingle
  rw [startsOutside_cons, List.mem_singleton] at hfirst hsecond
  exact ⟨hfirst, hsecond⟩

/-- The rule of string literals takes them, whatever follows. -/
theorem takes_literalString : Takes dialect.grammar (.call "literal_string") s rest ↔
    ∃ text, IsLiteral text ∧ s = text ++ rest := by
  have hlong : Takes dialect.grammar (.call "long_string") s rest ↔ ∃ level body,
      ClosesFirst level body ∧ s = openingBracket level ++ (body ++ closingBracket level ++ rest) :=
    (takes_call mem_longString).trans takes_longBracket
  refine (takes_call mem_literalString).trans ?_
  simp only [literalString, takes_choice_cons, takes_choice_nil, and_false, or_false]
  constructor
  · rintro (hdouble | ⟨-, hsingle | ⟨-, hbracket⟩⟩)
    · obtain ⟨pieces, hall, rfl⟩ := (takes_quoted .double).mp hdouble
      exact ⟨_, .quoted .double hall, by simp⟩
    · obtain ⟨pieces, hall, rfl⟩ := (takes_quoted .single).mp hsingle
      exact ⟨_, .quoted .single hall, by simp⟩
    · obtain ⟨level, body, hcloses, rfl⟩ := hlong.mp hbracket
      exact ⟨_, .long hcloses, by simp⟩
  · rintro ⟨_, @⟨_, _, pieces, quotes, hall⟩ | @⟨level, body, hcloses⟩, rfl⟩
    · cases quotes with
      | double => exact .inl ((takes_quoted .double).mpr ⟨pieces, hall, by simp⟩)
      | single =>
          exact .inr ⟨(failed_quoted_iff .double).mpr (by simp),
            .inl ((takes_quoted .single).mpr ⟨pieces, hall, by simp⟩)⟩
    · have houtside : ∀ quote, quote ≠ '[' → StartsOutside [quote]
          (openingBracket level ++ (body ++ closingBracket level) ++ rest) := by
        intro quote hquote
        rw [List.append_assoc, openingBracket_append, startsOutside_cons, List.mem_singleton]
        exact hquote.symm
      exact .inr ⟨(failed_quoted_iff .double).mpr (houtside _ (by decide)),
        .inr ⟨(failed_quoted_iff .single).mpr (houtside _ (by decide)),
          hlong.mpr ⟨level, body, hcloses, by simp⟩⟩⟩

end Dialect

namespace IsLiteral

variable {text : List Char}

/-- How a literal begins. -/
theorem begins (h : IsLiteral text) :
    (∃ c ∈ text.head?, c = '"' ∨ c = '\'') ∨ ∃ level, openingBracket level <+: text := by
  cases h with
  | quoted quotes _ => cases quotes <;> exact .inl ⟨_, rfl, by simp⟩
  | @long level body _ => exact .inr ⟨level, List.prefix_append _ _⟩

/-- A literal has an end besides its beginning. -/
theorem one_lt_length (h : IsLiteral text) : 1 < text.length := by
  cases h with
  | quoted _ _ => simp
  | long _ =>
      rw [List.length_append, length_openingBracket]
      omega

/-- Of two literals that a text begins with neither is longer. -/
theorem eq_of_append_eq {other rest more : List Char} (h : IsLiteral text)
    (hother : IsLiteral other) (heq : text ++ rest = other ++ more) : text = other := by
  obtain ⟨_, hfirst⟩ := (@takes_literalString pico8 _ _).mpr ⟨text, h, rfl⟩
  obtain ⟨_, hsecond⟩ := (@takes_literalString pico8 _ _).mpr ⟨other, hother, heq⟩
  cases hfirst.deterministic hsecond
  exact List.append_cancel_right heq

end IsLiteral

/-- A text without line ends is on one line as it is. -/
theorem OneLine.spaced_eq_self {text : List Char} (h : ∀ c ∈ text, isLineEnd c = false) :
    spaced text = text := by
  have hid : ∀ c ∈ text, (if isLineEnd c then ' ' else c) = c := fun c hc =>
    if_neg (Bool.eq_false_iff.mp (h c hc))
  rw [spaced, List.map_congr_left hid, List.map_id']

/-- The double-quoted literal of a value is made of its characters. -/
theorem OneLine.quote_eq_pieces (value : List Char) : quote value =
    '"' :: (Piece.textOfAll ((feeds value).map Piece.ofChar) ++ ['"']) := by
  rw [quote, Piece.escapeBreaks_escapeMarks]
  rfl

/-- On one line a string literal stays as it is, or is written in quotes. -/
theorem Item.flat_of_isLiteral {text : List Char} (h : IsLiteral text) :
    Item.flat ⟨.string, text⟩ = text ∨ ∃ rule quote pieces, Quotes rule quote ∧
      Piece.AllFit quote pieces ∧
        Item.flat ⟨.string, text⟩ = quote :: (Piece.textOfAll pieces ++ [quote]) := by
  rw [flat]
  by_cases hbreak : ∃ c ∈ text, OneLine.isLineEnd c = true
  · refine .inr ?_
    cases h with
    | quoted quotes hall =>
        have hflat := flatLexeme_quoted quotes hall hbreak
        simp only [Desugar.flatLexeme] at hflat
        split at hflat
        · rename_i replacement hstring
          cases hflat
          exact ⟨_, _, _, quotes, Piece.allFit_flatten quotes hall, by rw [hstring]; rfl⟩
        · cases hflat
    | @long level body hcloses =>
        have hhead : (openingBracket level ++ (body ++ closingBracket level)).head? = some '[' := by
          rw [openingBracket_append]
          rfl
        rw [OneLine.flatString?, if_pos (List.any_eq_true.mpr hbreak), if_pos hhead,
          OneLine.longStringValue?_eq]
        exact ⟨_, _, _, .double, Piece.allFit_map_ofChar (OneLine.not_mem_feeds _),
          OneLine.quote_eq_pieces _⟩
  · have hnone : text.any OneLine.isLineEnd = false := by
      rw [← Bool.not_eq_true, List.any_eq_true]
      exact hbreak
    have hkept : OneLine.spaced text = text := OneLine.spaced_eq_self fun c hc =>
      Bool.eq_false_iff.mpr fun hend => hbreak ⟨c, hc, hend⟩
    rw [OneLine.flatString?, hnone]
    exact .inl (by simpa using hkept)

/-- Written on one line, a string literal is one again. -/
theorem Item.isLiteral_flat {text : List Char} (h : IsLiteral text) :
    IsLiteral (Item.flat ⟨.string, text⟩) := by
  rcases flat_of_isLiteral h with hkept | ⟨_, _, _, quotes, hall, hflat⟩
  · rwa [hkept]
  · exact hflat ▸ .quoted quotes hall

end CartLua
