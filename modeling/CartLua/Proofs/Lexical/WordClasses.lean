import CartLua.Proofs.Derivation.Verdicts
import CartLua.Proofs.Lexical.Names
import CartLua.Proofs.Matching.Observers

/-!
# The classes of words

A word is a run of letters, digits and underscores, as long as it goes.  Where it does not begin
with a digit, it is read in one of two ways: as the keyword that it is, or as a name.  Never is a
part of a word taken, although keywords begin with one another and names begin with keywords:
the choice between the keywords is not reconsidered, and gets along without because the longest
ones come first.
-/

namespace CartLua

open Dialect

namespace Text

/-- The run of letters, digits and underscores at an offset. -/
def wordAt (text : Array Char) (offset : Nat) : List Char :=
  (rest text offset).takeWhile Terminal.isIdentifierPart

/-- Whether a letter or an underscore stands at an offset. -/
def beginsWord (text : Array Char) (offset : Nat) : Prop :=
  ∃ c ∈ (rest text offset).head?, Terminal.isIdentifierFirst c = true

end Text

namespace Dialect

variable {dialect : Dialect} {s t rest : List Char} {word other : String}

/-- Behind the run of the characters of names a word may end. -/
theorem endsWord_dropWhile (s : List Char) :
    EndsWord (s.dropWhile Terminal.isIdentifierPart) := by
  intro c hc hmem
  have hpart : Terminal.isIdentifierPart c = true := Terminal.isIdentifierPart_iff.mpr hmem
  have hfails := List.head?_dropWhile_not Terminal.isIdentifierPart s
  rw [Option.mem_def.mp hc] at hfails
  nomatch hpart.symm.trans hfails

/-- Every keyword begins with a letter. -/
theorem head_keywords (hword : word ∈ keywords) :
    ∃ c t, word.toList = c :: t ∧ Terminal.isIdentifierFirst c = true := by
  have hall : ∀ word ∈ keywords, word.toList.head?.any Terminal.isIdentifierFirst = true := by
    decide
  have hfirst := hall word hword
  cases hchars : word.toList with
  | nil => simp [hchars] at hfirst
  | cons c t => exact ⟨c, t, rfl, by simpa [hchars] using hfirst⟩

/-! ## Where no word begins -/

section

variable (hs : ¬∃ c ∈ s.head?, Terminal.isIdentifierFirst c = true)

include hs

theorem not_keyword_prefix (hword : word ∈ keywords) : ¬word.toList <+: s := by
  rintro ⟨t, rfl⟩
  obtain ⟨c, u, hchars, hfirst⟩ := head_keywords hword
  exact hs ⟨c, by simp [hchars], hfirst⟩

theorem failed_key_of_not_begins (hword : word ∈ keywords) :
    Derives dialect.grammar (key word) s .failed := by
  refine (DerivesIn.failed_of_settlesIn (settlesIn_key hword) (Nat.le_refl 5) ?_).erase
  intro parts rest hmatch
  exact not_keyword_prefix hs hword ⟨rest, (of_key hword hmatch).1.symm⟩

theorem failed_keyword_of_not_begins : Derives dialect.grammar (.call "keyword") s .failed := by
  refine (DerivesIn.failed_of_settlesIn (Identifier.settlesIn_keyword dialect) (Nat.le_refl 8)
    ?_).erase
  intro parts rest hmatch
  obtain ⟨_, -, hbody⟩ :=
    derives_of_call (by simp [rules, lexicalRules] : keyword ∈ dialect.rules) hmatch
  obtain ⟨_, _, _, hfound, -, -⟩ := hbody.of_seq_cons
  obtain ⟨before, word, after, hwords, hsplit, -⟩ := hfound.of_choice_texts
  have hword : word ∈ sortLongestFirst keywords := by simp [hwords]
  exact not_keyword_prefix hs (mem_sortBy.mp hword) ⟨_, hsplit.symm⟩

theorem failed_name_of_not_begins : Derives dialect.grammar (.call "name") s .failed := by
  have hmem : nameRule ∈ dialect.rules := by simp [rules, lexicalRules]
  have hmiss : Derives dialect.grammar (.terminal .identifier) s .failed := by
    apply Derives.of_answer
    cases s with
    | nil => rfl
    | cons c s =>
        have hc : Terminal.isIdentifierFirst c = false := by simpa using hs
        simp [Terminal.answer, Terminal.scan, hc]
  exact failed_call hmem
    (.seqCons (.lookahead (failed_keyword_of_not_begins hs)) (.seqStop hmiss id))

end

/-! ## Where a keyword stands -/

section

variable (hword : word ∈ keywords) (hend : EndsWord t)

include hword hend

theorem takes_key : Takes dialect.grammar (key word) (word.toList ++ t) t := by
  refine (takes_call (keyRule_mem hword)).mpr ?_
  have hfree : Derives dialect.grammar (.one nameCharacters) t .failed :=
    failed_oneOf_iff.mpr hend
  exact takes_seq_cons.mpr ⟨t, takes_literal.mpr rfl,
    takes_seq_cons.mpr ⟨t, ⟨_, .lookahead hfree⟩, takes_seq_nil.mpr rfl⟩⟩

theorem takes_keyword : Takes dialect.grammar (.call "keyword") (word.toList ++ t) t := by
  obtain ⟨x, hx, hunbroken⟩ := DerivesIn.exists_of_settlesIn (Identifier.settlesIn_keyword dialect)
    (Nat.le_refl 8) (word.toList ++ t)
  have hmem : keyword ∈ dialect.rules := by simp [rules, lexicalRules]
  cases x with
  | failed => exact absurd ((failed_call_iff hmem).mp hx.erase) (not_failed_keyword hword hend)
  | broken => exact absurd rfl hunbroken
  | matched parts rest =>
      -- What is found ends a word, so it is neither shorter nor longer than the one that is there.
      obtain ⟨_, -, hbody⟩ := derives_of_call hmem hx.erase
      obtain ⟨_, middle, _, hfound, hothers, -⟩ := hbody.of_seq_cons
      obtain ⟨before, found, after, hwords, hsplit, -⟩ := hfound.of_choice_texts
      obtain ⟨_, _, _, hfoundEnd, hnil, -⟩ := hothers.of_seq_cons
      obtain ⟨rfl, hends⟩ := of_wordEnd hfoundEnd
      obtain ⟨-, rfl⟩ := Match.seq_nil_iff.mp hnil.toMatch
      have hfoundMem : found ∈ keywords := by
        have hmem : found ∈ sortLongestFirst keywords := by simp [hwords]
        exact mem_sortBy.mp hmem
      have hle := length_le_of_prefix hend ⟨_, hsplit.symm⟩ (mem_nameCharacters hfoundMem)
      have hge := length_le_of_prefix hends ⟨t, hsplit⟩ (mem_nameCharacters hword)
      obtain ⟨-, rfl⟩ := List.append_inj hsplit (by omega)
      exact ⟨parts, hx.erase⟩

theorem failed_other_key (hother : other ∈ keywords) (hne : other ≠ word) :
    Derives dialect.grammar (key other) (word.toList ++ t) .failed := by
  obtain ⟨_, hkey⟩ : Takes dialect.grammar (key word) _ _ := takes_key hword hend
  refine (DerivesIn.failed_of_settlesIn (settlesIn_key hother) (Nat.le_refl 5) ?_).erase
  exact fun parts rest hmatch => hne (eq_of_keys hother hword hmatch hkey)

theorem failed_name_of_keyword :
    Derives dialect.grammar (.call "name") (word.toList ++ t) .failed := by
  obtain ⟨_, hkey⟩ : Takes dialect.grammar (key word) _ _ := takes_key hword hend
  have hsettles : (Pattern.call "name").settlesIn dialect 9 = true :=
    settlesIn_of_mem List.mem_cons_self
  refine (DerivesIn.failed_of_settlesIn hsettles (Nat.le_refl 9) ?_).erase
  exact fun parts rest => not_name_of_key hword hkey

end

end Dialect

/-! ## All words -/

variable {σ : Type} {text : Array Char} {offset : Nat}

/-- Where a word begins that is no keyword, an identifier stands. -/
def Identifier.ofWord (hbegins : Text.beginsWord text offset)
    (hfree : ∀ word ∈ keywords, Text.wordAt text offset ≠ word.toList) : Identifier where
  chars := Text.wordAt text offset
  begins := by
    obtain ⟨c, hc, hfirst⟩ := hbegins
    obtain ⟨t, ht⟩ := List.head?_eq_some_iff.mp hc
    have hpart : Terminal.isIdentifierPart c = true := by simp [Terminal.isIdentifierPart, hfirst]
    exact ⟨c, by simp [Text.wordAt, ht, hpart], hfirst⟩
  continues := fun c hc => List.all_eq_true.mp List.all_takeWhile c hc
  free := hfree

/-- A word is read whole, as the keyword that it is or else as a name, and by no other rule for
words.  Where no word begins, none of these rules matches. -/
theorem words_are_classified (dialect : Dialect) (text : Array Char) (observer : Observer σ)
    {depth : Nat} (hdepth : 8 ≤ depth) {st : State σ} (hst : st.offset ≤ text.size) :
    let tried := fun name =>
      Matching.run (dialect.grammar.setting text observer) depth (.rule name) st
    let word := Text.wordAt text st.offset
    (¬Text.beginsWord text st.offset →
      (tried "name").Missed st ∧ (tried "keyword").Missed st ∧
        ∀ other ∈ keywords, (tried (keyName other)).Missed st) ∧
    (Text.beginsWord text st.offset →
      (∀ known ∈ keywords, word = known.toList →
        (tried "keyword").Took st word ∧ (tried (keyName known)).Took st word ∧
          (tried "name").Missed st ∧
          ∀ other ∈ keywords, other ≠ known → (tried (keyName other)).Missed st) ∧
      ((∀ known ∈ keywords, word ≠ known.toList) →
        (tried "name").Took st word ∧ (tried "keyword").Missed st ∧
          ∀ other ∈ keywords, (tried (keyName other)).Missed st)) := by
  intro tried word
  have hname : nameRule ∈ dialect.rules := by simp [rules, lexicalRules]
  have hkeyword : keyword ∈ dialect.rules := by simp [rules, lexicalRules]
  have hnameSettles : (Pattern.call nameRule.name).settlesIn dialect (8 + 1) = true :=
    settlesIn_of_mem List.mem_cons_self
  have hkeywordSettles : (Pattern.call keyword.name).settlesIn dialect (7 + 1) = true :=
    Identifier.settlesIn_keyword dialect
  have hsplit : Text.rest text st.offset =
      word ++ (Text.rest text st.offset).dropWhile Terminal.isIdentifierPart :=
    List.takeWhile_append_dropWhile.symm
  have hend := endsWord_dropWhile (Text.rest text st.offset)
  refine ⟨fun hnone => ⟨?_, ?_, fun other hother => ?_⟩, fun hbegins =>
    ⟨fun known hknown hword => ⟨?_, ?_, ?_, fun other hother hne => ?_⟩,
      fun hfree => ⟨?_, ?_, fun other hother => ?_⟩⟩⟩
  · exact run_missed hname hnameSettles hdepth hst (failed_name_of_not_begins hnone)
  · exact run_missed hkeyword hkeywordSettles (by omega) hst (failed_keyword_of_not_begins hnone)
  · exact run_missed (keyRule_mem hother) (settlesIn_key hother) (by omega) hst
      (failed_key_of_not_begins hnone hother)
  · exact run_took hkeyword hkeywordSettles (by omega) hst hsplit
      (hword ▸ takes_keyword hknown hend)
  · exact run_took (keyRule_mem hknown) (settlesIn_key hknown) (by omega) hst hsplit
      (hword ▸ takes_key hknown hend)
  · refine run_missed hname hnameSettles hdepth hst ?_
    rw [hsplit, hword]
    exact failed_name_of_keyword hknown hend
  · refine run_missed (keyRule_mem hother) (settlesIn_key hother) (by omega) hst ?_
    rw [hsplit, hword]
    exact failed_other_key hknown hend hother hne
  · exact run_took hname hnameSettles hdepth hst hsplit
      ((Identifier.ofWord hbegins hfree).takes_name dialect hend)
  · refine run_missed hkeyword hkeywordSettles (by omega) hst ?_
    rw [hsplit]
    exact (Identifier.ofWord hbegins hfree).failed_keyword hend
  · refine run_missed (keyRule_mem hother) (settlesIn_key hother) (by omega) hst ?_
    rw [hsplit]
    exact (Identifier.ofWord hbegins hfree).failed_key hend hother

/-- The word `nothing` begins with a keyword, and is a name. -/
theorem words_are_classified_nothing :
    let text := "x nothing".toList.toArray
    let st := (State.initial ()).moveTo 2
    let tried := fun name =>
      Matching.run (Dialect.pico8.grammar.setting text (Observer.idle Unit)) 8 (.rule name) st
    (tried "name").Took st "nothing".toList ∧ (tried "keyword").Missed st ∧
      ∀ other ∈ keywords, (tried (keyName other)).Missed st := by
  intro text st tried
  have hclassified := words_are_classified .pico8 text (Observer.idle Unit) (Nat.le_refl 8)
    (by decide : st.offset ≤ text.size)
  exact (hclassified.2 ⟨'n', by decide⟩).2 (by decide)

end CartLua
