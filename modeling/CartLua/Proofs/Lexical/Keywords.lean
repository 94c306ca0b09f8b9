import CartLua.Proofs.Dialect.Cues
import CartLua.Proofs.Sorting

/-!
# Keywords and names

A keyword ends where no character of a name follows, so only one keyword can stand at a
place, and no name can stand where one does.  The second holds because longer keywords are
tried first: the choice among them is not taken back when the word goes on.
-/

namespace CartLua

namespace Dialect

open Pattern

variable {dialect : Dialect} {s t rest : List Char} {parts : List Tree}

/-- Whether a word may end before a text. -/
def EndsWord (t : List Char) : Prop := ∀ c ∈ t.head?, c ∉ nameCharacters.toList

/-- A keyword consists of some characters of a name. -/
theorem chars_keywords {word : String} (hword : word ∈ keywords) :
    word.toList ≠ [] ∧ ∀ c ∈ word.toList, c ∈ nameCharacters.toList := by
  have hall : ∀ word ∈ keywords,
      word.toList ≠ [] ∧ word.toList.all nameCharacters.toList.contains = true := by
    decide
  obtain ⟨hnonempty, hchars⟩ := hall word hword
  exact ⟨hnonempty, fun c hc => List.contains_iff_mem.mp (List.all_eq_true.mp hchars c hc)⟩

theorem mem_nameCharacters {word : String} (hword : word ∈ keywords) :
    ∀ c ∈ word.toList, c ∈ nameCharacters.toList :=
  (chars_keywords hword).2

/-- No word at the beginning of a text goes on after the end of another one. -/
theorem length_le_of_prefix {w u : List Char} (hend : EndsWord t) (hu : u <+: w ++ t)
    (hword : ∀ c ∈ u, c ∈ nameCharacters.toList) : u.length ≤ w.length := by
  apply Nat.le_of_not_lt
  intro hlt
  have hnext : u[w.length]? = t.head? := by
    rw [List.prefix_iff_eq_take.mp hu, List.getElem?_take_of_lt hlt,
      List.getElem?_append_right (Nat.le_refl _), Nat.sub_self, List.head?_eq_getElem?]
  rw [List.getElem?_eq_getElem hlt] at hnext
  exact hend u[w.length] hnext.symm (hword _ (List.getElem_mem hlt))

theorem of_wordEnd (h : Derives dialect.grammar wordEnd s (.matched parts rest)) :
    rest = s ∧ EndsWord s := by
  obtain ⟨rfl, hnone⟩ := takes_lookahead.mp ⟨parts, h⟩
  exact ⟨rfl, failed_oneOf_iff.mp hnone⟩

theorem of_failed_wordEnd (h : Derives dialect.grammar wordEnd s .failed) : ¬EndsWord s := by
  generalize ha : Answer.failed = a at h
  cases h with
  | @lookahead _ _ _ a inner =>
      cases a <;> cases ha
      obtain ⟨c, hc, -, rfl⟩ := Match.of_oneOf inner.toMatch
      exact fun hend => hend c rfl (by simpa using hc)

theorem keyRule_mem {word : String} (hword : word ∈ keywords) : keyRule word ∈ dialect.rules := by
  simp only [rules, lexicalRules, List.mem_append]
  have hmem := List.mem_map_of_mem (f := keyRule) hword
  simp [hmem]

/-- A keyword stands at the beginning of a text and ends there. -/
theorem of_key {word : String} (hword : word ∈ keywords)
    (h : Derives dialect.grammar (key word) s (.matched parts rest)) :
    s = word.toList ++ rest ∧ EndsWord rest := by
  obtain ⟨inner, -, hinner⟩ := derives_of_call (keyRule_mem hword) h
  obtain ⟨_, _, _, hfirst, hothers, -⟩ := hinner.of_seq_cons
  obtain ⟨-, rfl⟩ := Match.of_literal hfirst.toMatch
  obtain ⟨_, _, _, hend, hnil, -⟩ := hothers.of_seq_cons
  obtain ⟨rfl, hends⟩ := of_wordEnd hend
  cases hnil
  exact ⟨rfl, hends⟩

/-- A keyword begins with a character of a name. -/
theorem head_of_key {word : String} (hword : word ∈ keywords)
    (h : Derives dialect.grammar (key word) s (.matched parts rest)) :
    ∃ c ∈ nameCharacters.toList, ∃ t, s = c :: t := by
  obtain ⟨rfl, -⟩ := of_key hword h
  cases hchars : word.toList with
  | nil => exact absurd hchars (chars_keywords hword).1
  | cons c cs =>
      have hmem : c ∈ word.toList := hchars ▸ List.mem_cons_self
      exact ⟨c, mem_nameCharacters hword c hmem, cs ++ rest, rfl⟩

/-- Only one keyword stands at the beginning of a text. -/
theorem eq_of_keys {word other : String} (hword : word ∈ keywords) (hother : other ∈ keywords)
    {parts' : List Tree} {rest' : List Char}
    (h : Derives dialect.grammar (key word) s (.matched parts rest))
    (h' : Derives dialect.grammar (key other) s (.matched parts' rest')) : word = other := by
  obtain ⟨rfl, hend⟩ := of_key hword h
  obtain ⟨hsplit, hend'⟩ := of_key hother h'
  have hle := length_le_of_prefix hend ⟨rest', hsplit.symm⟩ (mem_nameCharacters hother)
  have hle' := length_le_of_prefix hend' ⟨rest, hsplit⟩ (mem_nameCharacters hword)
  apply String.toList_injective
  exact (List.append_inj hsplit (by omega)).1

/-- The keywords that are tried first are not shorter than the ones after them. -/
theorem length_sorted :
    (sortLongestFirst keywords).Pairwise fun a b => b.toList.length ≤ a.toList.length := by
  decide

/-- Where a keyword ends a word, it is found as a keyword. -/
theorem not_failed_keyword {word : String} (hword : word ∈ keywords) (hend : EndsWord t) :
    ¬Derives dialect.grammar keyword.body (word.toList ++ t) .failed := by
  intro h
  have hmem : word ∈ sortLongestFirst keywords := mem_sortBy.mpr hword
  rcases Derives.of_failed_seq h with hnone | ⟨_, middle, hfound, hothers⟩
  · exact Derives.of_failed_choice_texts hnone word hmem ⟨t, rfl⟩
  · obtain ⟨before, found, after, hwords, hs, hbefore⟩ := Derives.of_choice_texts hfound
    have hfoundMem : found ∈ keywords := by
      have hmem' : found ∈ sortLongestFirst keywords := by simp [hwords]
      exact mem_sortBy.mp hmem'
    have hle := length_le_of_prefix hend ⟨middle, hs.symm⟩ (mem_nameCharacters hfoundMem)
    have hge : word.toList.length ≤ found.toList.length := by
      have hsorted := length_sorted
      rw [hwords] at hmem hsorted
      rcases List.mem_append.mp hmem with hmem | hmem
      · exact absurd ⟨t, rfl⟩ (hbefore word hmem)
      · rcases List.mem_cons.mp hmem with rfl | hmem
        · exact Nat.le_refl _
        · exact (List.pairwise_cons.mp (List.pairwise_append.mp hsorted).2.1).1 word hmem
    obtain ⟨-, rfl⟩ := List.append_inj hs (by omega)
    rcases Derives.of_failed_seq hothers with hfailed | ⟨_, _, -, hnil⟩
    · exact of_failed_wordEnd hfailed hend
    · nomatch hnil

/-- No name stands where a keyword does. -/
theorem not_name_of_key {word : String} (hword : word ∈ keywords)
    (hkey : Derives dialect.grammar (key word) s (.matched parts rest))
    {parts' : List Tree} {rest' : List Char} :
    ¬Derives dialect.grammar (call "name") s (.matched parts' rest') := by
  intro hname
  obtain ⟨rfl, hend⟩ := of_key hword hkey
  obtain ⟨_, -, hbody⟩ := derives_of_call (by simp [rules, lexicalRules] : nameRule ∈ _) hname
  obtain ⟨_, _, _, hno, -, -⟩ := hbody.of_seq_cons
  obtain ⟨-, hkeyword⟩ := takes_lookahead.mp ⟨_, hno⟩
  have hmem : keyword ∈ dialect.rules := by simp [rules, lexicalRules]
  exact not_failed_keyword hword hend ((failed_call_iff hmem).mp hkeyword)

end Dialect

end CartLua
