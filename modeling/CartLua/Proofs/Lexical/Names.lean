import CartLua.Proofs.Lexical.Padding

/-!
# Names

A name is an identifier that is no keyword.  Before a text that does not continue the word, the
rule of names takes all of it, and every keyword fails.
-/

namespace CartLua

open Dialect

namespace Terminal

/-- The characters of names are those that continue an identifier. -/
theorem isIdentifierPart_iff {c : Char} :
    isIdentifierPart c = true ↔ c ∈ nameCharacters.toList := by
  have hlisted : nameCharacters.toList.all isIdentifierPart = true := by decide
  have hcounted : (List.range 128).all (fun k => !isIdentifierPart (Char.ofNat k) ||
      nameCharacters.toList.contains (Char.ofNat k)) = true := by decide
  refine ⟨fun hc => ?_, List.all_eq_true.mp hlisted c⟩
  have hsmall : c.toNat < 128 := by
    have hkinds : ((c.isUpper || c.isLower) || decide (c = '_') || c.isDigit) = true := hc
    have hbound : ∀ last : Char, last.toNat < 128 → c.val ≤ last.val → c.toNat < 128 :=
      fun last hlast hle => Nat.lt_of_le_of_lt hle hlast
    simp only [Bool.or_eq_true, decide_eq_true_eq] at hkinds
    rcases hkinds with ((hupper | hlower) | rfl) | hdigit
    · exact hbound 'Z' (by decide) (of_decide_eq_true hupper).2
    · exact hbound 'z' (by decide) (of_decide_eq_true (Bool.and_eq_true_iff.mp hlower).2)
    · decide
    · exact hbound '9' (by decide) (of_decide_eq_true (Bool.and_eq_true_iff.mp hdigit).2)
  have hnat := List.all_eq_true.mp hcounted c.toNat (List.mem_range.mpr hsmall)
  simpa [Char.ofNat_toNat, hc] using hnat

/-- An identifier goes on as long as the characters of names do. -/
theorem answer_identifier_cons (c : Char) (s : List Char) :
    identifier.answer (c :: s) =
      if isIdentifierFirst c then
        .matched [.chars (c :: s.takeWhile isIdentifierPart)] (s.dropWhile isIdentifierPart)
      else .failed := by
  have hrest : Text.rest (c :: s).toArray 1 = s := rfl
  have hend : Text.runEnd (c :: s).toArray isIdentifierPart 1 =
      1 + (s.takeWhile isIdentifierPart).length := by
    rw [Text.runEnd_eq, hrest]
  have htake : s.take (s.takeWhile isIdentifierPart).length = s.takeWhile isIdentifierPart :=
    (List.prefix_iff_eq_take.mp (List.takeWhile_prefix _)).symm
  have hdrop : s.drop (s.takeWhile isIdentifierPart).length = s.dropWhile isIdentifierPart := by
    have h := @List.drop_left _ (s.takeWhile isIdentifierPart) (s.dropWhile isIdentifierPart)
    rwa [List.takeWhile_append_dropWhile] at h
  cases hfirst : isIdentifierFirst c <;>
    simp [answer, scan, hfirst, hend, Nat.add_comm 1, htake, hdrop]

end Terminal

/-- An identifier that is no keyword. -/
structure Identifier where
  chars : List Char
  begins : ∃ c ∈ chars.head?, Terminal.isIdentifierFirst c = true
  continues : ∀ c ∈ chars, Terminal.isIdentifierPart c = true
  free : ∀ word ∈ keywords, chars ≠ word.toList

namespace Identifier

/-- A name of one letter. -/
def letter (c : Char)
    (h : Terminal.isIdentifierFirst c = true ∧ ∀ word ∈ keywords, [c] ≠ word.toList) :
    Identifier where
  chars := [c]
  begins := ⟨c, rfl, h.1⟩
  continues := by simp [Terminal.isIdentifierPart, h.1]
  free := h.2

variable {dialect : Dialect} {s rest : List Char} {parts : List Tree}

theorem exists_eq_cons (n : Identifier) :
    ∃ c t, n.chars = c :: t ∧ Terminal.isIdentifierFirst c = true := by
  obtain ⟨c, hc, hfirst⟩ := n.begins
  obtain ⟨t, ht⟩ := List.head?_eq_some_iff.mp hc
  exact ⟨c, t, ht, hfirst⟩

/-- The terminal for identifiers takes a whole name. -/
theorem answer_identifier (n : Identifier) (hs : EndsWord s) :
    Terminal.identifier.answer (n.chars ++ s) = .matched [.chars n.chars] s := by
  obtain ⟨c, t, hchars, hfirst⟩ := n.exists_eq_cons
  have ht : ∀ d ∈ t, Terminal.isIdentifierPart d = true :=
    fun d hd => n.continues d (hchars ▸ List.mem_cons_of_mem c hd)
  have hrun : (t ++ s).takeWhile Terminal.isIdentifierPart = t := by
    rw [List.takeWhile_append_of_pos ht]
    cases s with
    | nil => simp
    | cons d s =>
        have hd : Terminal.isIdentifierPart d ≠ true :=
          fun h => hs d rfl (Terminal.isIdentifierPart_iff.mp h)
        rw [List.takeWhile_cons_of_neg hd, List.append_nil]
  have hdrop : (t ++ s).dropWhile Terminal.isIdentifierPart = s := by
    have hparts := @List.takeWhile_append_dropWhile _ Terminal.isIdentifierPart (t ++ s)
    rwa [hrun, List.append_cancel_left_eq] at hparts
  rw [hchars, List.cons_append, Terminal.answer_identifier_cons, if_pos hfirst, hrun, hdrop]

/-- No keyword stands where a name does. -/
theorem not_key (n : Identifier) (hs : EndsWord s) {word : String} (hword : word ∈ keywords)
    (h : n.chars ++ s = word.toList ++ rest) (hrest : EndsWord rest) : False := by
  have hle := length_le_of_prefix hs ⟨rest, h.symm⟩ (mem_nameCharacters hword)
  have hge := length_le_of_prefix hrest ⟨s, h⟩
    fun c hc => Terminal.isIdentifierPart_iff.mp (n.continues c hc)
  exact n.free word hword (List.append_inj h (by omega)).1

theorem settlesIn_keyword (dialect : Dialect) :
    (Pattern.call "keyword").settlesIn dialect 8 = true := by
  cases dialect <;> decide

theorem failed_keyword (n : Identifier) (hs : EndsWord s) :
    Derives dialect.grammar (.call "keyword") (n.chars ++ s) .failed := by
  refine (DerivesIn.failed_of_settlesIn (settlesIn_keyword dialect) (Nat.le_refl 8) ?_).erase
  intro parts rest hmatch
  obtain ⟨_, -, hbody⟩ :=
    derives_of_call (by simp [rules, lexicalRules] : keyword ∈ dialect.rules) hmatch
  obtain ⟨_, _, _, hfound, hothers, -⟩ := hbody.of_seq_cons
  obtain ⟨before, word, after, hwords, hsplit, -⟩ := hfound.of_choice_texts
  obtain ⟨_, _, _, hend, -, -⟩ := hothers.of_seq_cons
  have hword : word ∈ sortLongestFirst keywords := by simp [hwords]
  exact n.not_key hs (mem_sortBy.mp hword) hsplit (of_wordEnd hend).2

theorem failed_key (n : Identifier) (hs : EndsWord s) {word : String} (hword : word ∈ keywords) :
    Derives dialect.grammar (key word) (n.chars ++ s) .failed := by
  refine (DerivesIn.failed_of_settlesIn (settlesIn_key hword) (Nat.le_refl 5) ?_).erase
  intro parts rest hmatch
  obtain ⟨hsplit, hend⟩ := of_key hword hmatch
  exact n.not_key hs hword hsplit hend

/-- The rule of names takes a whole name. -/
theorem takes_name (n : Identifier) (dialect : Dialect) (hs : EndsWord s) :
    Takes dialect.grammar (.call "name") (n.chars ++ s) s := by
  refine (takes_call (by simp [rules, lexicalRules] : nameRule ∈ dialect.rules)).mpr ?_
  refine takes_seq_cons.mpr ⟨_, ⟨[], .lookahead (n.failed_keyword hs)⟩, ?_⟩
  exact takes_seq_cons.mpr ⟨s, ⟨_, .of_answer (n.answer_identifier hs)⟩, takes_seq_nil.mpr rfl⟩

end Identifier

end CartLua
