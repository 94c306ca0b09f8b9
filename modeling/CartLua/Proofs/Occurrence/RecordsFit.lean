import CartLua.Proofs.Desugar.Fitting
import CartLua.Proofs.Occurrence.Confirmed

/-!
# What is recorded fits

The occurrences recorded of an accepted text are the captures of its derivation, so the
text has at each of them what the rule took, and they lie as the captures do.
-/

namespace CartLua

open Dialect

namespace OneLine

/-- A literal that does not begin with a bracket, or has a second one, can be brought onto
one line. -/
theorem flatString?_ne_none {literal : List Char}
    (h : literal.head? = some '[' → '[' ∈ literal.drop 1) :
    ∃ replacement, flatString? literal = some replacement := by
  rw [flatString?]
  split
  · split
    · rename_i hhead
      cases literal with
      | nil => cases hhead
      | cons c rest =>
          have hbracket : rest.contains '[' = true := by simpa using h hhead
          rw [longStringValue?, if_pos hbracket]
          exact ⟨_, rfl⟩
    · exact ⟨_, rfl⟩
  · exact ⟨_, rfl⟩

end OneLine

/-- A long bracket has a second opening bracket. -/
theorem Terminal.mem_drop_of_longBracket {s : List Char} {count : Nat}
    (h : Terminal.longBracket.scan s.toArray 0 = .take count) : '[' ∈ (s.take count).drop 1 := by
  rw [scan] at h
  split at h
  · simp only [scanLongBracket] at h
    have hcursor : 0 + 1 ≤ Text.runEnd s.toArray (· == '=') (0 + 1) := Text.le_runEnd _
    generalize Text.runEnd s.toArray (· == '=') (0 + 1) = cursor at h hcursor
    split at h
    · rename_i hstarts
      split at h
      · rename_i found hfound
        have hle := (Text.find?_spec hfound).1
        have hbracket : s[cursor]? = some '[' := by
          simp only [Text.startsAt, Bool.and_eq_true, beq_iff_eq, List.getElem?_toArray] at hstarts
          exact hstarts.1
        cases h
        apply List.mem_iff_getElem?.mpr
        refine ⟨cursor - 1, ?_⟩
        rw [List.getElem?_drop, Nat.add_sub_cancel' hcursor, List.getElem?_take_of_lt, hbracket]
        simp only [closingBracket, List.length_append, List.length_cons]
        omega
      · cases h
    · cases h
  · cases h

namespace Dialect

variable {s rest : List Char} {parts : List Tree}

/-- After a character of a set comes what is committed. -/
theorem of_ifMust_one {g : Grammar} {chars : String} {others : List Pattern}
    (h : Match g (.ifMust (.one chars) others) s parts rest) :
    ∃ c ∈ chars.toList, ∃ more, parts = .chars [c] :: more := by
  rw [Pattern.ifMust, Match.seq_cons_iff] at h
  obtain ⟨_, _, more, hfirst, -, rfl⟩ := h
  obtain ⟨c, hc, rfl, -⟩ := Match.of_oneOf hfirst
  exact ⟨c, by simpa using hc, more, rfl⟩

/-- A string literal begins with a quote, or has a second bracket. -/
theorem mem_drop_of_literalString (h : Match pico8.grammar literalString.body s parts rest)
    (hhead : (Tree.textOfAll parts).head? = some '[') : '[' ∈ (Tree.textOfAll parts).drop 1 := by
  have hdouble : doubleQuoteString ∈ rules pico8 := by simp [rules, lexicalRules]
  have hsingle : singleQuoteString ∈ rules pico8 := by simp [rules, lexicalRules]
  have hlong : longString ∈ rules pico8 := by simp [rules, lexicalRules]
  obtain ⟨item, hitem, hmatch⟩ := Match.choice_iff.mp h
  simp only [List.mem_cons, List.not_mem_nil, or_false] at hitem
  rcases hitem with rfl | rfl | rfl
  · obtain ⟨inner, rfl, hinner⟩ := of_call hdouble hmatch
    obtain ⟨c, hc, more, rfl⟩ := of_ifMust_one hinner
    simp only [Tree.textOfAll, Tree.text, List.cons_append, List.head?_cons] at hhead
    cases hhead
    exact absurd hc (by decide)
  · obtain ⟨inner, rfl, hinner⟩ := of_call hsingle hmatch
    obtain ⟨c, hc, more, rfl⟩ := of_ifMust_one hinner
    simp only [Tree.textOfAll, Tree.text, List.cons_append, List.head?_cons] at hhead
    cases hhead
    exact absurd hc (by decide)
  · obtain ⟨inner, rfl, hinner⟩ := of_call hlong hmatch
    cases hinner with
    | take hscan =>
        simpa [Tree.textOfAll, Tree.text] using Terminal.mem_drop_of_longBracket hscan
    | stay hscan => cases Terminal.nullable_of_stay hscan

variable {source : Source} {tree : Tree}

/-- What a capture of a rule stands for in the text. -/
theorem text_of_mem_captures (h : Match pico8.grammar (.rule rootName) source.chars [tree] [])
    {rule : Rule} (hrule : rule ∈ rules pico8) {c : Capture}
    (hc : c ∈ Walk.initial.captures tree) (hname : c.rule = rule.name) :
    ∃ inner before after, source.chars = before ++ (Tree.textOfAll inner ++ after) ∧
      c.Shows rule inner before.length ∧
      ∃ s rest, Match pico8.grammar rule.body s inner rest := by
  have htext := h.text_eq
  rw [List.append_nil] at htext
  rw [captures_eq] at hc
  obtain ⟨n, hn, before, after, hsplit, hshows⟩ :=
    Walk.node_of_mem_capturesOfAll anchored_initial [tree] c hc
  obtain ⟨hmem, hbody⟩ := h.derived n hn
  obtain rfl : n.1 = rule := eq_of_name_eq hmem hrule (hshows.rule_eq.symm.trans hname)
  rw [show Walk.initial.offset = 0 from rfl, Nat.zero_add] at hshows
  exact ⟨n.2, before, after, htext.trans hsplit, hshows, hbody⟩

/-- A capture of an occurrence's rule is one of the occurrences. -/
theorem mem_occurrences {c : Capture} (hc : c ∈ Walk.initial.captures tree)
    {kind : OccurrenceKind} (hname : c.rule = kind.name) : c ∈ Walk.initial.occurrences [tree] := by
  rw [captures_eq] at hc
  exact List.mem_filter.mpr ⟨hc, Capture.isOccurrence_of_rule_eq hname⟩

/-- The piece between what comes before and what comes after. -/
theorem piece_of_split {before taken after : List Char}
    (h : source.chars = before ++ (taken ++ after)) {start stop : Int}
    (hstart : start = before.length) (hstop : stop = start + taken.length) :
    source.piece start stop = taken := by
  have hstop' : stop = ((before.length + taken.length : Nat) : Int) := by omega
  rw [hstart, hstop', Source.piece_natCast, Source.slice_eq, h, ← List.append_assoc,
    List.take_left' (List.length_append), List.drop_left]

theorem flattens_of_mem_captures
    (h : Match pico8.grammar (.rule rootName) source.chars [tree] []) {lexeme : Lexeme}
    (hlexeme : lexeme ∈ (Walk.initial.captures tree).filterMap Capture.lexeme?) :
    lexeme.Flattens source := by
  obtain ⟨c, hc, hkind⟩ := List.mem_filterMap.mp hlexeme
  obtain ⟨kind, hrule, rfl⟩ := Option.map_eq_some_iff.mp hkind
  rw [Recorder.lexemeKind?] at hrule
  split at hrule
  · cases hrule
    exact ⟨_, rfl⟩
  · split at hrule
    · rename_i hname
      cases hrule
      have hmem : literalString ∈ rules pico8 := by simp [rules, lexicalRules]
      obtain ⟨inner, before, after, hsplit, hshows, s, rest, hinner⟩ :=
        text_of_mem_captures h hmem hc hname
      have hpiece : source.piece c.start c.stop = Tree.textOfAll inner := by
        apply piece_of_split hsplit
        · rw [hshows.start_eq rfl, hshows.ruleStart_eq]
        · rw [hshows.start_eq rfl, hshows.stop_eq]
      obtain ⟨replacement, hreplacement⟩ :=
        OneLine.flatString?_ne_none (mem_drop_of_literalString hinner)
      refine ⟨replacement, ?_⟩
      simp only [Desugar.flatLexeme, hpiece, hreplacement]
    · cases hrule

/-- A captured compound assignment has its operator. -/
theorem hasOperator_of_mem_captures
    (h : Match pico8.grammar (.rule rootName) source.chars [tree] []) {recorder : Recorder}
    {c : Capture} (hc : c ∈ Walk.initial.captures tree)
    (hname : c.rule = OccurrenceKind.reassignment.name) :
    (recorder.occurrence source .reassignment c).HasOperator source := by
  have hmem : reassignment ∈ rules pico8 := by simp [rules, chainStatementRules, extension]
  obtain ⟨inner, before, after, hsplit, hshows, s, rest, hinner⟩ :=
    text_of_mem_captures h hmem hc hname
  obtain ⟨operator, others, rfl, _, _, hoperator⟩ := of_reassignment hinner
  obtain ⟨mark, hmark, rfl⟩ := of_operatorsReassign hoperator
  have hoccurrence := mem_occurrences hc hname
  have hbeside := (nested_of_whole h).operators c hoccurrence hname
  have hstart := hshows.ruleStart_eq
  have htext : ∀ k, source.text[before.length + k]? =
      (mark :: '=' :: (Tree.textOfAll others ++ after))[k]? := by
    intro k
    rw [← Array.getElem?_toList]
    change source.chars[before.length + k]? = _
    rw [hsplit, List.getElem?_append_right (by omega)]
    simp [Tree.textOfAll, Tree.text]
  refine ⟨before.length, mark, ?_, ?_, ?_, hmark, htext 0, htext 1⟩
  · simp [Recorder.occurrence, hstart]
  · simp only [Recorder.occurrence]
    omega
  · simp only [Occurrence.stop, Recorder.occurrence]
    omega

theorem stop_occurrence {recorder : Recorder} (kind : OccurrenceKind) (c : Capture) :
    (recorder.occurrence source kind c).stop = c.tokenEnd := by
  simp only [Occurrence.stop, Recorder.occurrence]
  omega

/-- What is recorded lies in the text. -/
theorem placed_of_mem_captures (h : Match pico8.grammar (.rule rootName) source.chars [tree] [])
    (recorder : Recorder) {kind : OccurrenceKind} {c : Capture}
    (hc : c ∈ Walk.initial.captures tree) (hname : c.rule = kind.name) :
    (recorder.occurrence source kind c).Placed source := by
  have hsize := (nested_of_whole h).sizes c (mem_occurrences hc hname)
  have hclosed : Tree.opensAny [tree] = false :=
    h.opensAny_eq_false (recordable pico8).toSound (by decide)
  have hlast := (Walk.tokenEnd_passAll (Nat.le_refl Walk.initial.tokenEnd) [tree]).2
  have hlength : source.length = (Tree.textOfAll [tree]).length := by
    have htext := congrArg List.length h.text_eq
    simpa [Source.chars, Source.length] using htext
  have hoffset : (Walk.initial.passAll [tree]).offset = (Tree.textOfAll [tree]).length := by
    simp [Walk.initial]
  rw [captures_eq] at hc
  constructor
  · exact Walk.le_start_of_mem_capturesOfAll hclosed hc
  · rw [stop_occurrence]
    exact hsize.1
  · rw [stop_occurrence]
    omega
  · rfl
  · rfl

/-- What is recorded fits the text. -/
theorem fits_of_mem_captures (h : Match pico8.grammar (.rule rootName) source.chars [tree] [])
    {recorder : Recorder} (hconfirms : recorder.Confirms source tree) {kind : OccurrenceKind}
    {c : Capture} (hc : c ∈ Walk.initial.captures tree) (hname : c.rule = kind.name) :
    (recorder.occurrence source kind c).Fits source := by
  constructor
  · exact placed_of_mem_captures h recorder hc hname
  · intro hkind
    obtain rfl : kind = .notEqual := hkind
    have hmem : operatorNotEqual ∈ rules pico8 := by simp [rules, tierRules, extension]
    obtain ⟨inner, before, after, hsplit, hshows, s, rest, hinner⟩ :=
      text_of_mem_captures h hmem hc hname
    rw [of_operatorNotEqual hinner] at hsplit
    apply piece_of_split hsplit
    · exact (hshows.start_eq rfl).trans hshows.ruleStart_eq
    · rfl
  · intro hkind
    obtain rfl : kind = .reassignment := hkind
    exact hasOperator_of_mem_captures h hc hname
  · intro lexeme hlexeme
    simp only [Recorder.occurrence] at hlexeme
    split at hlexeme
    · apply flattens_of_mem_captures h
      apply hconfirms.lexemes_perm.mem_iff.mp
      exact ((List.takeWhile_sublist _).trans (List.dropWhile_sublist _)).mem hlexeme
    · cases hlexeme

/-- What is recorded of captures lies as they do. -/
theorem separate_of_apart {recorder : Recorder} {c d : Capture} (h : c.Apart d)
    {kind other : OccurrenceKind} (hother : d.rule = other.name) :
    (recorder.occurrence source kind c).Separate (recorder.occurrence source other d) := by
  rcases h with hbefore | hinside
  · apply Or.inl
    rw [stop_occurrence]
    exact hbefore
  · apply Or.inr (Or.inr (Or.inl _))
    constructor
    · exact hinside.start_lt
    · rw [stop_occurrence, stop_occurrence]
      exact hinside.tokenEnd_le
    · intro hkind
      apply hinside.not_notEqual
      rw [hother]
      exact congrArg OccurrenceKind.name hkind
    · intro operator hoperator
      simp only [Recorder.occurrence] at hoperator
      split at hoperator
      · rename_i hreassignment
        cases hoperator
        simp only [Desugar.besideOperator, stop_occurrence, Bool.or_eq_true, decide_eq_true_eq]
        apply hinside.beside
        rw [hother, hreassignment]
      · cases hoperator

/-- Different occurrences of one derivation are apart or nested. -/
theorem separate_of_mem (h : Match pico8.grammar (.rule rootName) source.chars [tree] [])
    (recorder : Recorder) {c d : Capture} (hc : c ∈ Walk.initial.occurrences [tree])
    (hd : d ∈ Walk.initial.occurrences [tree]) (hne : c ≠ d) {kind other : OccurrenceKind}
    (hkind : c.rule = kind.name) (hother : d.rule = other.name) :
    (recorder.occurrence source kind c).Separate (recorder.occurrence source other d) := by
  have hapart := (nested_of_whole h).apart
  let R (c d : Capture) : Prop := c ≠ d → ∀ kind other : OccurrenceKind,
    c.rule = kind.name → d.rule = other.name →
      (recorder.occurrence source kind c).Separate (recorder.occurrence source other d)
  have hforth : (Walk.initial.occurrences [tree]).Pairwise R := by
    apply hapart.imp
    intro c d hapart _ kind other _ hother
    exact separate_of_apart hapart hother
  have hback : (Walk.initial.occurrences [tree]).Pairwise (flip R) := by
    apply hapart.imp
    intro c d hapart _ kind other hkind _
    exact (separate_of_apart hapart hkind).symm
  have hself : ∀ c ∈ Walk.initial.occurrences [tree], R c c := by
    intro c _ hne
    exact absurd rfl hne
  exact List.Pairwise.forall_of_forall_of_flip hself hforth hback hc hd hne kind other hkind hother

/-- An entry of a log is what was recorded of a capture of its rule. -/
theorem capture_of_mem_log {recorder : Recorder} (hconfirms : recorder.Confirms source tree)
    {kind : OccurrenceKind} {o : Occurrence} (ho : o ∈ (recorder.log kind).toList) :
    ∃ c ∈ Walk.initial.occurrences [tree], c.rule = kind.name ∧
      o = recorder.occurrence source kind c := by
  have hmem := (hconfirms.occurrences_perm kind).mem_iff.mp ho
  obtain ⟨c, hc, rfl⟩ := List.mem_map.mp hmem
  have hname := beq_iff_eq.mp (List.mem_filter.mp hc).2
  exact ⟨c, mem_occurrences (List.mem_filter.mp hc).1 hname, hname, rfl⟩

/-- A record is what was recorded of a capture of its rule. -/
theorem capture_of_mem_occurrences {recorder : Recorder} (hconfirms : recorder.Confirms source tree)
    {kinds : List OccurrenceKind} {o : Occurrence} (ho : o ∈ recorder.occurrences kinds) :
    ∃ c ∈ Walk.initial.occurrences [tree], c.rule = o.kind.name ∧
      o = recorder.occurrence source o.kind c := by
  rw [Recorder.occurrences, Occurrence.sort, mem_sortBy] at ho
  obtain ⟨kind, -, hlog⟩ := List.mem_flatMap.mp ho
  obtain ⟨c, hc, hname, rfl⟩ := capture_of_mem_log hconfirms hlog
  exact ⟨c, hc, hname, rfl⟩

/-- The records of an accepted text are apart or nested. -/
theorem laminar_occurrences (h : Match pico8.grammar (.rule rootName) source.chars [tree] [])
    {recorder : Recorder} (hconfirms : recorder.Confirms source tree)
    {kinds : List OccurrenceKind} (hkinds : kinds.Nodup) :
    Occurrence.Laminar (recorder.occurrences kinds) := by
  have hlogs : ∀ kinds : List OccurrenceKind, kinds.Nodup →
      Occurrence.Laminar (kinds.flatMap fun kind => (recorder.log kind).toList) := by
    intro kinds hkinds
    apply List.pairwise_flatMap.mpr
    constructor
    · intro kind _
      apply Occurrence.Laminar.of_perm _ (hconfirms.occurrences_perm kind)
      apply List.pairwise_map.mpr
      have hapart := (nested_of_whole h).apart
      rw [Walk.occurrences, ← captures_eq, List.pairwise_filter] at hapart
      apply List.pairwise_filter.mpr
      apply hapart.imp
      intro c d hapart hc hd
      apply separate_of_apart (hapart _ _) (beq_iff_eq.mp hd)
      · exact Capture.isOccurrence_of_rule_eq (beq_iff_eq.mp hc)
      · exact Capture.isOccurrence_of_rule_eq (beq_iff_eq.mp hd)
    · apply hkinds.imp
      intro kind other hne a ha b hb
      obtain ⟨c, hc, hcname, rfl⟩ := capture_of_mem_log hconfirms ha
      obtain ⟨d, hd, hdname, rfl⟩ := capture_of_mem_log hconfirms hb
      apply separate_of_mem h recorder hc hd _ hcname hdname
      rintro rfl
      rw [hcname] at hdname
      apply hne
      rw [← Option.some_inj, ← OccurrenceKind.ofName?_name, ← OccurrenceKind.ofName?_name other,
        hdname]
  rw [Recorder.occurrences]
  apply Occurrence.Laminar.of_perm _ (sortBy_perm _ _)
  split
  · exact hlogs _ (by decide)
  · exact hlogs _ hkinds

/-- The records of an accepted text fit it. -/
theorem fits_of_mem_occurrences (h : Match pico8.grammar (.rule rootName) source.chars [tree] [])
    {recorder : Recorder} (hconfirms : recorder.Confirms source tree)
    {kinds : List OccurrenceKind} {o : Occurrence} (ho : o ∈ recorder.occurrences kinds) :
    o.Fits source := by
  obtain ⟨c, hc, hname, heq⟩ := capture_of_mem_occurrences hconfirms ho
  rw [heq]
  exact fits_of_mem_captures h hconfirms (captures_eq tree ▸ (List.mem_filter.mp hc).1) hname

end Dialect

end CartLua
