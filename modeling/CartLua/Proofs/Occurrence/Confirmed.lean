import CartLua.Proofs.Occurrence.Nesting

/-!
# The logs hold the confirmed matches

When a text is accepted, each log holds one entry for every match of its rule in the one
derivation of the text, and the entries are in strict order.  Actions of alternatives that
were given up have left nothing, and no trim has dropped a confirmed entry.
-/

namespace CartLua

open Dialect

namespace Capture

/-- The lexeme that a capture shows, if its rule is one of comments or strings. -/
def lexeme? (c : Capture) : Option Lexeme :=
  (Recorder.lexemeKind? c.rule).map fun kind => ⟨kind, c.start, c.stop⟩

/-- Whether a capture shows a lexeme. -/
def isLexeme (c : Capture) : Bool := (Recorder.lexemeKind? c.rule).isSome

end Capture

namespace Recorder

/-- What lies before a place is not changed by lexemes that begin there or later. -/
theorem between_seeAll {source : Source} {recorder : Recorder} (h : recorder.Ordered)
    {start stop : Int} {cs : List Capture}
    (hcs : ∀ c ∈ cs, c.isLexeme = true → stop ≤ c.start) :
    (recorder.seeAll source cs).lexemes.between start stop =
      recorder.lexemes.between start stop := by
  induction cs generalizing recorder with
  | nil => rfl
  | cons c cs ih =>
      have hrest := ih (h.see source c) fun d hd => hcs d (List.mem_cons_of_mem c hd)
      apply hrest.trans
      rw [lexemes_see]
      cases hkind : lexemeKind? c.rule with
      | none => rfl
      | some kind =>
          exact h.lexemes.between_record
            (hcs c List.mem_cons_self (by simp [Capture.isLexeme, hkind]))

theorem occurrence_eq {a b : Recorder} {source : Source} {kind : OccurrenceKind} {c : Capture}
    (h : kind = .reassignment →
      a.lexemes.between c.start c.ruleStart = b.lexemes.between c.start c.ruleStart) :
    a.occurrence source kind c = b.occurrence source kind c := by
  by_cases hkind : kind = .reassignment
  · simp only [occurrence, h hkind]
  · simp only [occurrence, if_neg hkind]

/-- Captures in a row are all recorded, each with the lexemes of its target. -/
theorem log_seeAll_perm (source : Source) {recorder : Recorder} (h : recorder.Ordered)
    {cs : List Capture}
    (hcs : cs.Pairwise fun c d => c.isOccurrence = true → d.isLexeme = true → c.stop ≤ d.start)
    (hstop : ∀ c ∈ cs, c.ruleStart ≤ c.stop) (kind : OccurrenceKind) :
    ((recorder.seeAll source cs).log kind).toList.Perm ((recorder.log kind).toList ++
      (cs.filter fun c => c.rule == kind.name).map
        ((recorder.seeAll source cs).occurrence source kind)) := by
  induction cs generalizing recorder with
  | nil => simp [seeAll]
  | cons c cs ih =>
      rw [List.pairwise_cons] at hcs
      have hrest := ih (h.see source c) hcs.2 fun d hd => hstop d (List.mem_cons_of_mem c hd)
      change ((recorder.see source c).seeAll source cs).log kind |>.toList.Perm _ at hrest
      apply hrest.trans
      change (((recorder.see source c).log kind).toList ++ _).Perm
        ((recorder.log kind).toList ++ List.map
          (((recorder.see source c).seeAll source cs).occurrence source kind) _)
      rw [log_see]
      by_cases hrule : c.rule = kind.name
      · have hoccurrence : recorder.occurrence source kind c =
            ((recorder.see source c).seeAll source cs).occurrence source kind c := by
          apply occurrence_eq
          intro _
          have hlexemes : (recorder.see source c).lexemes = recorder.lexemes := by
            rw [lexemes_see, hrule, lexemeKind?_name]
          rw [between_seeAll (h.see source c), hlexemes]
          intro d hd hlexeme
          have hafter := hcs.1 d hd (by simp [Capture.isOccurrence, hrule]) hlexeme
          exact Int.le_trans (hstop c List.mem_cons_self) hafter
        rw [if_pos hrule, List.filter_cons_of_pos (by simpa using hrule), List.map_cons,
          hoccurrence]
        exact ((OffsetLog.toList_record_perm _ _).append_right _).trans List.perm_middle.symm
      · rw [if_neg hrule, List.filter_cons_of_neg (by simpa using hrule)]

/-- All lexemes captured are recorded. -/
theorem lexemes_seeAll_perm (source : Source) (recorder : Recorder) (cs : List Capture) :
    (recorder.seeAll source cs).lexemes.toList.Perm
      (recorder.lexemes.toList ++ cs.filterMap Capture.lexeme?) := by
  induction cs generalizing recorder with
  | nil => simp [seeAll]
  | cons c cs ih =>
      apply (ih (recorder.see source c)).trans
      rw [lexemes_see]
      cases hkind : lexemeKind? c.rule with
      | none =>
          rw [List.filterMap_cons_none (by simp [Capture.lexeme?, hkind])]
      | some kind =>
          rw [List.filterMap_cons_some (by simp [Capture.lexeme?, hkind]; rfl)]
          exact ((OffsetLog.toList_record_perm _ _).append_right _).trans List.perm_middle.symm

end Recorder

/-- Entries in order that begin at different places are in strict order. -/
theorem OffsetLog.Ordered.pairwise_lt {α : Type} [Positioned α] {log : OffsetLog α}
    (h : log.Ordered) {entries : List α} (hperm : log.toList.Perm entries)
    (hne : entries.Pairwise fun a b => Positioned.offset a ≠ Positioned.offset b) :
    log.toList.Pairwise fun a b => Positioned.offset a < Positioned.offset b := by
  have hdistinct : log.toList.Pairwise fun a b => Positioned.offset a ≠ Positioned.offset b :=
    (hperm.pairwise_iff fun h => h.symm).mpr hne
  exact (h.pairwise_toList.and hdistinct).imp fun h => by omega

namespace Dialect

/-- The rules inside a comment or a string. -/
def lexemeRules : List String :=
  ["double_quote_string", "single_quote_string", "long_string", "short_comment", "character",
    "escaped"]

/-- Comments and strings lead only to rules that the recorder does not look out for. -/
def insideLexeme (rule : Rule) : Bool :=
  (!(lexemeRules.contains rule.name || (Recorder.lexemeKind? rule.name).isSome) ||
      rule.body.callsWithin lexemeRules) &&
    (!(Recorder.lexemeKind? rule.name).isSome || !rule.anchored)

theorem insideLexeme_rules : (rules pico8).all insideLexeme = true := by
  decide

theorem not_watches_of_lexemeRules {name : String} (h : lexemeRules.contains name = true) :
    Recorder.watches name = false := by
  simp only [lexemeRules, List.contains_eq_mem, List.mem_cons, List.not_mem_nil, or_false,
    decide_eq_true_eq] at h
  rcases h with rfl | rfl | rfl | rfl | rfl | rfl <;> decide

/-- What the recorder looks out for ends before a later comment or string begins. -/
theorem pairwise_lexemes {w : Walk} (hw : w.Anchored) {parts : List Tree}
    (hderived : Tree.Derived parts) :
    (w.capturesOfAll parts).Pairwise fun c d =>
      d.isLexeme = true → Recorder.watches c.rule = true → c.stop ≤ d.ruleStart := by
  apply Walk.pairwise_capturesOfAll hw (fun c d h _ _ => h) parts
  intro n hn w hw c hc hlexeme hwatches
  obtain ⟨hrule, s, rest, hmatch⟩ := hderived n hn
  have hlexemeRule : (Recorder.lexemeKind? n.1.name).isSome = true := hlexeme
  have hcalls : ∀ rule ∈ pico8.grammar.rules, lexemeRules.contains rule.name = true →
      rule.body.callsWithin lexemeRules = true := by
    intro rule hmem hname
    have hinside := List.all_eq_true.mp insideLexeme_rules rule (rules_grammar pico8 ▸ hmem)
    simp only [insideLexeme, Bool.and_eq_true] at hinside
    simpa only [hname, Bool.true_or, Bool.not_true, Bool.false_or] using hinside.1
  have hbody : n.1.body.callsWithin lexemeRules = true := by
    have hinside := List.all_eq_true.mp insideLexeme_rules n.1 hrule
    simp only [insideLexeme, Bool.and_eq_true] at hinside
    simpa only [hlexemeRule, Bool.or_true, Bool.not_true, Bool.false_or] using hinside.1
  obtain ⟨m, hm, _, _, -, hshows⟩ := Walk.node_of_mem_capturesOfAll (hw.enter n.1) _ c hc
  have hnone := not_watches_of_lexemeRules (hmatch.names_within hcalls hbody m hm)
  rw [hshows.rule_eq, hnone] at hwatches
  cases hwatches

/-- A comment or string is reported from where it begins. -/
theorem start_of_lexeme {w : Walk} (hw : w.Anchored) {parts : List Tree}
    (hderived : Tree.Derived parts) {c : Capture} (hc : c ∈ w.capturesOfAll parts)
    (hlexeme : c.isLexeme = true) : c.start = c.ruleStart := by
  obtain ⟨n, hn, _, _, -, hshows⟩ := Walk.node_of_mem_capturesOfAll hw parts c hc
  have hinside := List.all_eq_true.mp insideLexeme_rules n.1 (hderived n hn).1
  have hkind : (Recorder.lexemeKind? n.1.name).isSome = true :=
    hshows.rule_eq ▸ hlexeme
  simp only [insideLexeme, Bool.and_eq_true, hkind, Bool.not_true, Bool.false_or,
    Bool.not_eq_true'] at hinside
  exact hshows.start_eq hinside.2

/-- What the recorder looks out for takes something. -/
theorem ruleStart_lt_stop {w : Walk} (hw : w.Anchored) {parts : List Tree}
    (hderived : Tree.Derived parts) {c : Capture} (hc : c ∈ w.capturesOfAll parts)
    (hwatches : Recorder.watches c.rule = true) : c.ruleStart < c.stop := by
  obtain ⟨n, hn, _, _, -, hshows⟩ := Walk.node_of_mem_capturesOfAll hw parts c hc
  obtain ⟨hrule, s, rest, hmatch⟩ := hderived n hn
  rw [hshows.rule_eq] at hwatches
  have htext := hmatch.text_ne_nil (recordable pico8).toSound
    ((recordable pico8).watched n.1 (by rw [rules_grammar]; exact hrule) hwatches)
  have hpos := List.length_pos_iff.mpr htext
  have hstop := hshows.stop_eq
  omega

/-- A list of statements that stops at the end of the text takes all of it. -/
theorem rest_eq_nil_of_statementList {dialect : Dialect} {s rest : List Char} {parts : List Tree}
    (h : Match dialect.grammar (statementList .endOfInput) s parts rest) : rest = [] := by
  simp only [statementList, Pattern.inOrder, Match.seq_cons_iff, Match.seq_nil_iff] at h
  obtain ⟨_, _, _, -, ⟨_, _, _, hloop, ⟨-, rfl⟩, -⟩, -⟩ := h
  generalize hp : Pattern.untilMatch _ _ = p at hloop
  induction hloop with
  | untilHere here =>
      cases hp
      obtain ⟨item, hitem, hmatch⟩ := Match.choice_iff.mp here
      simp only [List.mem_cons, List.not_mem_nil, or_false] at hitem
      rcases hitem with rfl | rfl
      · exact (Match.of_endOfInput hmatch).2.2
      · simp only [Pattern.ifMust, List.map, Match.seq_cons_iff, Match.must_iff,
          Match.seq_nil_iff] at hmatch
        obtain ⟨_, _, _, -, ⟨_, _, _, -, ⟨_, _, _, hend, ⟨-, rfl⟩, -⟩, -⟩, -⟩ := hmatch
        exact (Match.of_endOfInput hend).2.2
  | untilMore _ _ _ ihothers => exact ihothers hp
  | _ => cases hp

/-- A whole text is matched to its end, by one node of the root. -/
theorem of_program {dialect : Dialect} {s rest : List Char} {parts : List Tree}
    (h : Match dialect.grammar (.rule rootName) s parts rest) :
    rest = [] ∧ ∃ tree, parts = [tree] := by
  have hmem : program ∈ dialect.rules := by simp [rules, definitionRules]
  obtain ⟨inner, rfl, hinner⟩ := (Match.rule_iff (rule?_grammar hmem)).mp h
  simp only [program, Pattern.mustAll, Pattern.inOrder, List.map, Match.seq_cons_iff,
    Match.must_iff, Match.seq_nil_iff] at hinner
  obtain ⟨_, _, _, -, ⟨_, _, _, hstatements, ⟨-, rfl⟩, -⟩, -⟩ := hinner
  exact ⟨rest_eq_nil_of_statementList hstatements, _, rfl⟩

/-- The outcome of a parse with the recorder attached is that of the match. -/
theorem record_eq (dialect : Dialect) (limit : Int) (source : Source) :
    (dialect.parser limit).record source =
      match Matching.run (dialect.grammar.recording source) (dialect.parser limit).depth
        (.rule rootName) (State.initial .empty) with
      | ⟨.matched, st⟩ =>
          (.ok ⟨source.filename, dialect.grammar.name, rootName, st.offset,
            st.offset == source.length⟩, st.observed)
      | ⟨.failed, st⟩ =>
          (.error (.parse (.ofFault source dialect.grammar.keywords (st.mismatch (some rootName)))),
            st.observed)
      | ⟨.stopped stop, st⟩ =>
          (.error ((dialect.parser limit).failureOf source st stop), st.observed) := by
  have hroot : dialect.grammar.root = rootName := by cases dialect <;> rfl
  unfold Parser.record Parser.parse Parser.prefixLength Parser.run
  simp only [parser, hroot]
  rcases houtcome : Matching.run (dialect.grammar.recording source)
    (Parser.depth ⟨dialect.grammar, limit, dialect.checked_grammar⟩) (.rule rootName)
    (State.initial .empty) with ⟨verdict, st⟩
  simp only [Grammar.recording] at houtcome
  rw [houtcome]
  cases verdict <;> rfl

/-- A text is accepted when the root matches it. -/
theorem exists_record_eq_ok_iff {dialect : Dialect} {limit : Int} {source : Source} :
    (∃ parsed, ((dialect.parser limit).record source).1 = .ok parsed) ↔
      (Matching.run (dialect.grammar.recording source) (dialect.parser limit).depth
        (.rule rootName) (State.initial .empty)).verdict = .matched := by
  rw [record_eq]
  rcases Matching.run (dialect.grammar.recording source) (dialect.parser limit).depth
    (.rule rootName) (State.initial .empty) with ⟨verdict, last⟩
  cases verdict <;> simp

/-- What is recorded of a text is what its match leaves behind. -/
theorem recorder_record (dialect : Dialect) (limit : Int) (source : Source) :
    ((dialect.parser limit).record source).2 =
      (Matching.run (dialect.grammar.recording source) (dialect.parser limit).depth
        (.rule rootName) (State.initial .empty)).state.observed := by
  rw [record_eq]
  rcases Matching.run (dialect.grammar.recording source) (dialect.parser limit).depth
    (.rule rootName) (State.initial .empty) with ⟨verdict, last⟩
  cases verdict <;> rfl

/-- A compound assignment of a comparison is accepted. -/
theorem record_reassignment :
    ∃ parsed, ((pico8.parser 0).record (.ofString "a+=b!=c" "cart")).1 = .ok parsed := by
  rw [exists_record_eq_ok_iff, recording_eq]
  decide +kernel

theorem settled_initial (source : Source) : (State.initial Recorder.empty).Settled source where
  offset_le := Nat.zero_le _
  anchored := by
    intro a ha
    cases ha
  ordered := Recorder.ordered_empty
  before := Recorder.before_empty _

/-- A whole text is matched as derivations say. -/
theorem follows_record (dialect : Dialect) (limit : Int) (source : Source) :
    Follows dialect.grammar source (.rule rootName) (State.initial .empty)
      (Matching.run (dialect.grammar.recording source) (dialect.parser limit).depth
        (.rule rootName) (State.initial .empty)) :=
  follows_run (recordable dialect) _ (sound_rootName dialect) (settled_initial source)

/-- An accepted text has a derivation, and what was recorded is what its rules
captured. -/
theorem derives_of_record {dialect : Dialect} {limit : Int} {source : Source} {parsed : Parsed}
    (h : ((dialect.parser limit).record source).1 = .ok parsed) :
    ∃ tree, Derives dialect.grammar (.rule rootName) source.chars (.matched [tree] []) ∧
      ((dialect.parser limit).record source).2.Agrees
        (Recorder.empty.seeAll source (Walk.initial.captures tree)) := by
  have hfollows := follows_record dialect limit source
  rw [record_eq] at h ⊢
  rcases houtcome : Matching.run (dialect.grammar.recording source) (dialect.parser limit).depth
    (.rule rootName) (State.initial .empty) with ⟨verdict, last⟩
  rw [houtcome] at h hfollows
  cases verdict with
  | matched =>
      obtain ⟨parts, hparts, hreach⟩ := hfollows
      obtain ⟨hrest, tree, rfl⟩ := of_program hparts.toMatch
      rw [hrest] at hparts
      have hobserved := hreach.observed
      simp only [List.nil_append, Walk.capturesOfAll, List.append_nil] at hobserved
      exact ⟨tree, hparts, hobserved⟩
  | failed => cases h
  | stopped stop => cases h

end Dialect

/-- Whether the logs hold one entry for every match of their rules in a tree, in strict
order. -/
structure Recorder.Confirms (source : Source) (recorder : Recorder) (tree : Tree) : Prop where
  occurrences_perm : ∀ kind : OccurrenceKind, (recorder.log kind).toList.Perm
    (((Walk.initial.captures tree).filter fun c => c.rule == kind.name).map
      (recorder.occurrence source kind))
  occurrences_lt : ∀ kind : OccurrenceKind,
    (recorder.log kind).toList.Pairwise fun a b => a.offset < b.offset
  lexemes_perm : recorder.lexemes.toList.Perm
    ((Walk.initial.captures tree).filterMap Capture.lexeme?)
  lexemes_lt : recorder.lexemes.toList.Pairwise fun a b => a.offset < b.offset

namespace Dialect

variable {s rest : List Char} {tree : Tree}

theorem anchored_initial : Walk.initial.Anchored := plain_initial.anchored

theorem captures_eq (tree : Tree) :
    Walk.initial.captures tree = Walk.initial.capturesOfAll [tree] :=
  (List.append_nil _).symm

/-- Occurrences of one kind begin at different places. -/
theorem starts_ne (h : Match pico8.grammar (.rule rootName) s [tree] rest)
    (kind : OccurrenceKind) :
    ((Walk.initial.captures tree).filter fun c => c.rule == kind.name).Pairwise
      fun c d => c.start ≠ d.start := by
  have hnested := nested_of_whole h
  have hapart := hnested.apart
  rw [Walk.occurrences, List.pairwise_filter] at hapart
  rw [captures_eq, List.pairwise_filter]
  apply hapart.imp_of_mem
  intro c d hc _ h hcRule hdRule
  have hc' := Capture.isOccurrence_of_rule_eq (beq_iff_eq.mp hcRule)
  have hd' := Capture.isOccurrence_of_rule_eq (beq_iff_eq.mp hdRule)
  have hsize := hnested.sizes c (List.mem_filter.mpr ⟨hc, hc'⟩)
  rcases h hc' hd' with hle | hinside
  · omega
  · have hlt := hinside.start_lt
    omega

/-- Comments and strings begin at different places. -/
theorem lexeme_starts_ne (h : Match pico8.grammar (.rule rootName) s [tree] rest) :
    ((Walk.initial.captures tree).filterMap Capture.lexeme?).Pairwise
      fun a b => a.offset ≠ b.offset := by
  rw [captures_eq, List.pairwise_filterMap]
  apply (pairwise_lexemes anchored_initial h.derived).imp_of_mem
  intro c d hc hd hbefore a ha b hb
  obtain ⟨kind, hkind, rfl⟩ := Option.map_eq_some_iff.mp ha
  obtain ⟨other, hother, rfl⟩ := Option.map_eq_some_iff.mp hb
  have hcLexeme : c.isLexeme = true := by simp [Capture.isLexeme, hkind]
  have hdLexeme : d.isLexeme = true := by simp [Capture.isLexeme, hother]
  have hwatches : Recorder.watches c.rule = true := Bool.or_eq_true_iff.mpr (.inr hcLexeme)
  have hle := hbefore hdLexeme hwatches
  have hlt := ruleStart_lt_stop anchored_initial h.derived hc hwatches
  have hcStart := start_of_lexeme anchored_initial h.derived hc hcLexeme
  have hdStart := start_of_lexeme anchored_initial h.derived hd hdLexeme
  change c.start ≠ d.start
  omega

/-- A recorder that has seen the captures of a whole text confirms its tree. -/
theorem confirms_of_agrees {source : Source} {recorder : Recorder}
    (h : Match pico8.grammar (.rule rootName) s [tree] rest)
    (hagrees : recorder.Agrees (Recorder.empty.seeAll source (Walk.initial.captures tree))) :
    recorder.Confirms source tree := by
  have hordered : recorder.Ordered := (Recorder.ordered_empty.seeAll source _).of_agrees hagrees
  have hbefore : (Walk.initial.captures tree).Pairwise fun c d =>
      c.isOccurrence = true → d.isLexeme = true → c.stop ≤ d.start := by
    rw [captures_eq]
    apply (pairwise_lexemes anchored_initial h.derived).imp_of_mem
    intro c d _ hd hbefore hoccurrence hlexeme
    rw [start_of_lexeme anchored_initial h.derived hd hlexeme]
    exact hbefore hlexeme (Bool.or_eq_true_iff.mpr (.inl hoccurrence))
  have hstop : ∀ c ∈ Walk.initial.captures tree, c.ruleStart ≤ c.stop := by
    rw [captures_eq]
    exact fun c hc => (Walk.bounds_of_mem_capturesOfAll anchored_initial hc).2.1
  have hoccurrences : ∀ kind : OccurrenceKind, (recorder.log kind).toList.Perm
      (((Walk.initial.captures tree).filter fun c => c.rule == kind.name).map
        (recorder.occurrence source kind)) := by
    intro kind
    have hperm := Recorder.log_seeAll_perm source Recorder.ordered_empty hbefore hstop kind
    have hempty : (Recorder.empty.log kind).toList = [] := by cases kind <;> rfl
    rw [← hagrees.log kind, hempty, List.nil_append] at hperm
    apply hperm.trans (List.Perm.of_eq _)
    apply List.map_congr_left
    intro c _
    exact (Recorder.occurrence_congr hagrees.lexemes source kind c).symm
  have hlexemes : recorder.lexemes.toList.Perm
      ((Walk.initial.captures tree).filterMap Capture.lexeme?) := by
    rw [hagrees.lexemes]
    exact Recorder.lexemes_seeAll_perm source Recorder.empty (Walk.initial.captures tree)
  constructor
  · exact hoccurrences
  · intro kind
    exact (hordered.log kind).pairwise_lt (hoccurrences kind)
      (List.pairwise_map.mpr (starts_ne h kind))
  · exact hlexemes
  · exact hordered.lexemes.pairwise_lt hlexemes (lexeme_starts_ne h)

end Dialect

/-- An accepted text has one derivation, and the recorder confirms it. -/
theorem record_confirms {limit : Int} {source : Source} {parsed : Parsed}
    (hparsed : ((pico8.parser limit).record source).1 = .ok parsed) :
    ∃ tree, (∀ answer, Derives pico8.grammar (.rule rootName) source.chars answer ↔
        answer = .matched [tree] []) ∧
      ((pico8.parser limit).record source).2.Confirms source tree := by
  obtain ⟨tree, htree, hagrees⟩ := derives_of_record hparsed
  have hunique : ∀ answer, Derives pico8.grammar (.rule rootName) source.chars answer ↔
      answer = .matched [tree] [] := by
    intro answer
    constructor
    · intro hanswer
      exact hanswer.deterministic htree
    · rintro rfl
      exact htree
  exact ⟨tree, hunique, confirms_of_agrees htree.toMatch hagrees⟩

/-- A compound assignment of a comparison is confirmed. -/
theorem record_confirms_reassignment :
    ∃ parsed tree, ((pico8.parser 0).record (.ofString "a+=b!=c" "cart")).1 = .ok parsed ∧
      (∀ answer, Derives pico8.grammar (.rule rootName) (Source.ofString "a+=b!=c" "cart").chars
        answer ↔ answer = .matched [tree] []) ∧
      ((pico8.parser 0).record (.ofString "a+=b!=c" "cart")).2.Confirms
        (.ofString "a+=b!=c" "cart") tree := by
  obtain ⟨parsed, hparsed⟩ := record_reassignment
  obtain ⟨tree, hunique, hconfirms⟩ := record_confirms hparsed
  exact ⟨parsed, tree, hparsed, hunique, hconfirms⟩

end CartLua
