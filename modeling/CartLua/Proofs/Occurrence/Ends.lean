import CartLua.Proofs.Derivation.Composition
import CartLua.Proofs.Lexical.Padding

/-!
# Where occurrences end

A rule of the dialect often takes padding at its end, because an operator may come after it.
What is recorded ends before that padding.  The reader of a derivation keeps the end of the last
token for this: characters taken by a padding rule do not move it.  Here the characters of a
tree are marked by whether a padding rule took them, and the end of the last token is compared
with the marks.
-/

namespace CartLua

open Dialect

namespace Tree

mutual

/-- The characters of a tree, each with whether a padding rule took it. -/
def marked (inside : Bool) : Tree → List (Char × Bool)
  | chars taken => taken.map (·, inside)
  | node rule parts => markedAll (inside || rule.padding) parts

/-- The marked characters of several trees in a row. -/
def markedAll (inside : Bool) : List Tree → List (Char × Bool)
  | [] => []
  | part :: parts => part.marked inside ++ markedAll inside parts

end

@[simp]
theorem markedAll_append (inside : Bool) (as bs : List Tree) :
    markedAll inside (as ++ bs) = markedAll inside as ++ markedAll inside bs := by
  induction as with
  | nil => rfl
  | cons a as ih => simp [markedAll, ih]

mutual

/-- The marked characters are those of the text. -/
theorem map_fst_marked (inside : Bool) : (t : Tree) → (t.marked inside).map Prod.fst = t.text
  | chars taken => by simp [marked, text, Function.comp_def]
  | node rule parts => map_fst_markedAll (inside || rule.padding) parts

theorem map_fst_markedAll (inside : Bool) : (parts : List Tree) →
    (markedAll inside parts).map Prod.fst = textOfAll parts
  | [] => rfl
  | part :: parts => by
      rw [markedAll, List.map_append, map_fst_marked inside part, map_fst_markedAll inside parts]
      rfl

end

mutual

/-- Inside padding all characters are padding. -/
theorem marked_true : (t : Tree) → t.marked true = t.text.map (·, true)
  | chars _ => rfl
  | node _ parts => markedAll_true parts

theorem markedAll_true : (parts : List Tree) →
    markedAll true parts = (textOfAll parts).map (·, true)
  | [] => rfl
  | part :: parts => by
      rw [markedAll, marked_true part, markedAll_true parts, ← List.map_append]
      rfl

end

theorem length_markedAll (inside : Bool) (parts : List Tree) :
    (markedAll inside parts).length = (textOfAll parts).length := by
  rw [← map_fst_markedAll inside parts, List.length_map]

end Tree

namespace Walk

mutual

/-- Inside padding no token ends. -/
theorem tokenEnd_pass_of_padding {w : Walk} (hw : 0 < w.padding) : (t : Tree) →
    (w.pass t).tokenEnd = w.tokenEnd
  | .chars taken => by
      rw [pass, advance, if_neg (Int.ne_of_gt hw)]
  | .node rule parts => by
      have henter : 0 < (w.enter rule).padding := by
        simp only [enter]
        split <;> omega
      exact tokenEnd_passAll_of_padding henter parts

theorem tokenEnd_passAll_of_padding {w : Walk} (hw : 0 < w.padding) : (parts : List Tree) →
    (w.passAll parts).tokenEnd = w.tokenEnd
  | [] => rfl
  | part :: parts => by
      have hpart : 0 < (w.pass part).padding := by rwa [padding_pass]
      rw [passAll, tokenEnd_passAll_of_padding hpart parts, tokenEnd_pass_of_padding hw part]

end

end Walk

/-! ## The last token of a match -/

/-- Whether a match takes characters up to one that is no padding, and then padding. -/
structure EndsWith (kept : List (Char × Bool)) (trail : List Char) (parts : List Tree)
    (s rest : List Char) : Prop where
  text_eq : s = kept.map Prod.fst ++ (trail ++ rest)
  marked_eq : Tree.markedAll false parts = kept ++ trail.map (·, true)
  last_eq : ∀ m ∈ kept.getLast?, m.2 = false
  padding : Padding trail rest
  tokenEnd_eq : ∀ w : Walk, w.padding = 0 →
    (w.passAll parts).tokenEnd = if kept = [] then w.tokenEnd else w.offset + kept.length

namespace EndsWith

variable {kept more : List (Char × Bool)} {trail others : List Char} {parts bs : List Tree}
  {s t rest : List Char}

theorem nil (s : List Char) : EndsWith [] [] [] s s where
  text_eq := rfl
  marked_eq := rfl
  last_eq := nofun
  padding := .nil s
  tokenEnd_eq _ _ := rfl

/-- Characters outside padding are kept. -/
theorem chars {taken : List Char} (htaken : taken ≠ []) (rest : List Char) :
    EndsWith (taken.map (·, false)) [] [.chars taken] (taken ++ rest) rest where
  text_eq := by simp [Function.comp_def]
  marked_eq := by simp [Tree.markedAll, Tree.marked]
  last_eq m hm := by
    obtain ⟨c, -, rfl⟩ := List.mem_map.mp (List.mem_of_getLast? hm)
    rfl
  padding := .nil rest
  tokenEnd_eq w hw := by
    rw [if_neg (by simpa using htaken)]
    simp [Walk.passAll, Walk.pass, Walk.advance, hw]

/-- What a padding rule takes is no part of a token. -/
theorem paddingRule {rule : Rule} (hrule : rule.padding = true) {inner : List Tree}
    (hs : s = Tree.textOfAll inner ++ rest) (hpadding : Padding (Tree.textOfAll inner) rest) :
    EndsWith [] (Tree.textOfAll inner) [.node rule inner] s rest where
  text_eq := hs
  marked_eq := by
    rw [List.nil_append, ← Tree.markedAll_true]
    simp [Tree.markedAll, Tree.marked, hrule]
  last_eq := nofun
  padding := hpadding
  tokenEnd_eq w hw := by
    have henter : 0 < (w.enter rule).padding := by simp [Walk.enter, hrule, hw]
    exact Walk.tokenEnd_passAll_of_padding henter inner

/-- Any other rule ends with what its body ends with. -/
theorem node {rule : Rule} (hrule : rule.padding = false) (h : EndsWith kept trail parts s rest) :
    EndsWith kept trail [.node rule parts] s rest where
  text_eq := h.text_eq
  marked_eq := by
    rw [← h.marked_eq]
    simp [Tree.markedAll, Tree.marked, hrule]
  last_eq := h.last_eq
  padding := h.padding
  tokenEnd_eq w hw := by
    have henter : (w.enter rule).padding = 0 := by simp [Walk.enter, hrule, hw]
    exact h.tokenEnd_eq (w.enter rule) henter

/-- A match that is all padding adds to the padding before it. -/
theorem append_padding (h : EndsWith kept trail parts s t) (hmore : EndsWith [] others bs t rest) :
    EndsWith kept (trail ++ others) (parts ++ bs) s rest where
  text_eq := by
    rw [h.text_eq, hmore.text_eq]
    simp
  marked_eq := by
    rw [Tree.markedAll_append, h.marked_eq, hmore.marked_eq]
    simp
  last_eq := h.last_eq
  padding := by
    have hpadding := h.padding
    rw [hmore.text_eq, List.map_nil, List.nil_append] at hpadding
    exact hpadding.append hmore.padding
  tokenEnd_eq w hw := by
    have hparts : (w.passAll parts).padding = 0 := by rw [Walk.padding_passAll, hw]
    rw [Walk.passAll_append, hmore.tokenEnd_eq _ hparts, if_pos rfl, h.tokenEnd_eq w hw]

/-- A match with a token takes in all that comes before the token. -/
theorem append_token (h : EndsWith kept trail parts s t) (hmore : EndsWith more others bs t rest)
    (hne : more ≠ []) :
    EndsWith (kept ++ (trail.map (·, true) ++ more)) others (parts ++ bs) s rest where
  text_eq := by
    rw [h.text_eq, hmore.text_eq]
    simp [Function.comp_def]
  marked_eq := by
    rw [Tree.markedAll_append, h.marked_eq, hmore.marked_eq]
    simp
  last_eq m hm := by
    rw [← List.append_assoc, List.getLast?_append, List.getLast?_eq_some_getLast hne,
      Option.some_or] at hm
    exact hmore.last_eq m (by rwa [List.getLast?_eq_some_getLast hne])
  padding := hmore.padding
  tokenEnd_eq w hw := by
    have hparts : (w.passAll parts).padding = 0 := by rw [Walk.padding_passAll, hw]
    have hlength : (Tree.textOfAll parts).length = kept.length + trail.length := by
      rw [← Tree.length_markedAll false, h.marked_eq, List.length_append, List.length_map]
    rw [Walk.passAll_append, hmore.tokenEnd_eq _ hparts, if_neg hne, if_neg (by simp [hne]),
      Walk.offset_passAll, hlength]
    simp [Nat.add_assoc]

theorem append (h : EndsWith kept trail parts s t) (hmore : EndsWith more others bs t rest) :
    ∃ kept trail, EndsWith kept trail (parts ++ bs) s rest := by
  by_cases hne : more = []
  · subst hne
    exact ⟨_, _, h.append_padding hmore⟩
  · exact ⟨_, _, h.append_token hmore hne⟩

end EndsWith

namespace Dialect

variable {s rest : List Char} {parts : List Tree}

theorem takesSome_of_mem {rule : Rule} (hrule : rule ∈ rules pico8) :
    rule.body.terminalsAll Terminal.takesSome = true := by
  have hall : (rules pico8).all (fun rule => rule.body.terminalsAll Terminal.takesSome) = true := by
    decide
  exact List.all_eq_true.mp hall rule hrule

/-- Every match of the dialect ends with padding behind its last token. -/
theorem endsWith_of_derives {p : Pattern} (hp : p.terminalsAll Terminal.takesSome = true)
    (h : Derives pico8.grammar p s (.matched parts rest)) :
    ∃ kept trail, EndsWith kept trail parts s rest := by
  have hrules : ∀ rule ∈ pico8.grammar.rules, rule.body.terminalsAll Terminal.takesSome = true :=
    fun rule hrule => takesSome_of_mem (rules_grammar pico8 ▸ hrule)
  refine Derives.of_parts (P := fun parts s rest => ∃ kept trail, EndsWith kept trail parts s rest)
    hrules ?nil ?append ?taken ?passed ?node hp h
  case nil => exact fun s => ⟨[], [], .nil s⟩
  case append =>
    rintro as bs s t rest ⟨kept, trail, has⟩ ⟨more, others, hbs⟩
    exact has.append hbs
  case taken =>
    intro t s count hok hscan
    have hchars := EndsWith.chars (Terminal.take_ne_nil hok hscan) (s.drop count)
    rw [List.take_append_drop] at hchars
    exact ⟨_, _, hchars⟩
  case passed => exact fun c s => ⟨_, _, .chars (List.cons_ne_nil c []) s⟩
  case node =>
    rintro name rule inner s rest found hbody ⟨kept, trail, hinner⟩
    cases hrule : rule.padding with
    | false => exact ⟨kept, trail, hinner.node hrule⟩
    | true =>
        have hmem : rule ∈ rules pico8 := rules_grammar pico8 ▸ Grammar.mem_of_rule? found
        obtain ⟨text, htext, hs⟩ := padding_of_body hmem hrule ⟨inner, hbody⟩
        have hinnerText := hbody.toMatch.text_eq
        obtain rfl : text = Tree.textOfAll inner :=
          List.append_cancel_right (hs.symm.trans hinnerText)
        exact ⟨[], _, .paddingRule hrule hs htext⟩

end Dialect

/-! ## Occurrences -/

/-- Where an occurrence of some trees is captured: a reader that has come to its node, outside
padding, with characters before and after those of the node. -/
structure Walk.Captured (w : Walk) (parts : List Tree) (c : Capture) (rule : Rule)
    (inner : List Tree) (v : Walk) (before after : List (Char × Bool)) : Prop where
  node_mem : (rule, inner) ∈ Tree.nodesOfAll parts
  plain : v.Plain
  padding : rule.padding = false
  marked_eq : Tree.markedAll false parts = before ++ (Tree.markedAll false inner ++ after)
  offset_eq : v.offset = w.offset + before.length
  capture_eq : c = (v.pass (.node rule inner)).capture rule v.offset

namespace Walk

mutual

/-- An occurrence of a tree is captured in it. -/
theorem captured_of_mem_captures {w : Walk} (hw : w.Plain) : (t : Tree) → Tree.Derived [t] →
    ∀ c ∈ w.occurrences [t], ∃ rule inner v before after,
      w.Captured [t] c rule inner v before after
  | .chars _, _, c, hc => by simp at hc
  | .node rule parts, hderived, c, hc => by
      obtain ⟨hrule, -⟩ := hderived.node
      by_cases hpadded : paddingRules.contains rule.name = true
      · rw [occurrences_of_padding hw.anchored hderived hpadded] at hc
        cases hc
      have hplain : (rule.padding || rule.quiet) = false :=
        Bool.eq_false_iff.mpr fun h => hpadded (padding_of_mem hrule h)
      obtain ⟨hpadding, hquiet⟩ := Bool.or_eq_false_iff.mp hplain
      have hmarked : Tree.markedAll false [.node rule parts] = Tree.markedAll false parts := by
        simp [Tree.markedAll, Tree.marked, hpadding]
      rw [occurrences_node hw.quiet, List.mem_append] at hc
      rcases hc with hc | hc
      · obtain ⟨other, inner, v, before, after, h⟩ :=
          captured_of_mem_occurrences (hw.enter hpadding hquiet) parts hderived.inner c hc
        refine ⟨other, inner, v, before, after, ?_, h.plain, h.padding, ?_, h.offset_eq,
          h.capture_eq⟩
        · simp [Tree.nodesOfAll, Tree.nodes, h.node_mem]
        · rw [hmarked, h.marked_eq]
      · have hown := List.mem_singleton.mp (List.mem_filter.mp hc).1
        refine ⟨rule, parts, w, [], [], ?_, hw, hpadding, ?_, rfl, hown⟩
        · simp [Tree.nodesOfAll, Tree.nodes]
        · simp [hmarked]

theorem captured_of_mem_occurrences {w : Walk} (hw : w.Plain) :
    (parts : List Tree) → Tree.Derived parts →
    ∀ c ∈ w.occurrences parts, ∃ rule inner v before after,
      w.Captured parts c rule inner v before after
  | [], _, c, hc => by simp at hc
  | part :: parts, hderived, c, hc => by
      rw [occurrences_cons, List.mem_append] at hc
      rcases hc with hc | hc
      · obtain ⟨rule, inner, v, before, after, h⟩ :=
          captured_of_mem_captures hw part hderived.head c hc
        refine ⟨rule, inner, v, before, after ++ Tree.markedAll false parts, ?_, h.plain, h.padding,
          ?_, h.offset_eq, h.capture_eq⟩
        · have hmem := h.node_mem
          simp only [Tree.nodesOfAll, List.append_nil] at hmem
          exact List.mem_append_left _ hmem
        · have hpart := h.marked_eq
          simp only [Tree.markedAll, List.append_nil] at hpart
          rw [Tree.markedAll, hpart]
          simp
      · obtain ⟨rule, inner, v, before, after, h⟩ :=
          captured_of_mem_occurrences (hw.pass part) parts hderived.tail c hc
        refine ⟨rule, inner, v, part.marked false ++ before, after, ?_, h.plain, h.padding, ?_, ?_,
          h.capture_eq⟩
        · exact List.mem_append_right _ h.node_mem
        · rw [Tree.markedAll, h.marked_eq, List.append_assoc]
        · have hlength := Tree.length_markedAll false [part]
          simp only [Tree.markedAll, Tree.textOfAll, List.append_nil] at hlength
          rw [h.offset_eq, offset_pass, List.length_append, hlength, Nat.add_assoc]

end

/-- A captured occurrence ends with the last token of its node, which is not the end of a token
before it. -/
theorem Captured.tokenEnd_eq {w : Walk} {parts : List Tree} {c : Capture} {rule : Rule}
    {inner : List Tree} {v : Walk} {before after kept : List (Char × Bool)}
    {trail s rest : List Char}
    (h : w.Captured parts c rule inner v before after) (hends : EndsWith kept trail inner s rest)
    (hsize : c.ruleStart < c.tokenEnd) : kept ≠ [] ∧ c.tokenEnd = v.offset + kept.length := by
  have henter : (v.enter rule).padding = 0 := by simp [Walk.enter, h.padding, h.plain.padding]
  have hlast : (v.pass (.node rule inner)).tokenEnd =
      if kept = [] then v.tokenEnd else v.offset + kept.length :=
    hends.tokenEnd_eq (v.enter rule) henter
  have hshows := shows_capture h.plain.anchored rule inner
  rw [← h.capture_eq] at hshows
  have hstart := hshows.start_le
  have hbegin := hshows.ruleStart_eq
  have htoken : c.tokenEnd = max c.start (min (v.pass (.node rule inner)).tokenEnd c.stop) := by
    rw [h.capture_eq]
    rfl
  have hbefore := h.plain.tokenEnd_le
  by_cases hkept : kept = []
  · rw [if_pos hkept] at hlast
    omega
  · rw [if_neg hkept] at hlast
    refine ⟨hkept, ?_⟩
    rw [h.capture_eq, tokenEnd_capture h.plain (by omega), hlast]
    rfl

end Walk

namespace Dialect

/-- An occurrence takes something behind the place where its rule begins. -/
theorem ruleStart_lt_tokenEnd {s rest : List Char} {parts : List Tree}
    (h : Match pico8.grammar (.rule rootName) s parts rest) {c : Capture}
    (hc : c ∈ Walk.initial.occurrences parts) : c.ruleStart < c.tokenEnd := by
  have hnested := nested_of_whole h
  by_cases hrule : c.rule = OccurrenceKind.reassignment.name
  · have hoperator := hnested.operators c hc hrule
    omega
  · have hsize := (hnested.sizes c hc).1
    obtain ⟨n, hn, _, _, -, hshows⟩ :=
      Walk.node_of_mem_capturesOfAll anchored_initial parts c (List.mem_filter.mp hc).1
    have hanchored : n.1.anchored = false := by
      apply Bool.eq_false_iff.mpr
      intro hanchored
      exact hrule (hshows.rule_eq.trans (anchored_of_mem (h.derived n hn).1 hanchored))
    rwa [← hshows.start_eq hanchored]

/-- An occurrence ends with a character that no padding rule took, and what its rule took behind
that is padding. -/
theorem ends_of_mem_occurrences {s : List Char} {tree : Tree}
    (h : Derives pico8.grammar (.rule rootName) s (.matched [tree] [])) {c : Capture}
    (hc : c ∈ Walk.initial.occurrences [tree]) :
    ∃ before last trail after,
      tree.marked false = before ++ ((last, false) :: (trail.map (·, true) ++ after)) ∧
      c.tokenEnd = before.length + 1 ∧ c.stop = c.tokenEnd + trail.length ∧ Padding trail [] := by
  obtain ⟨rule, inner, v, before, after, hcaptured⟩ :=
    Walk.captured_of_mem_occurrences plain_initial [tree] h.toMatch.derived c hc
  obtain ⟨⟨_, hfound⟩, t, rest, hbody⟩ := h.of_mem_nodes _ hcaptured.node_mem
  have hrule : rule ∈ rules pico8 := rules_grammar pico8 ▸ Grammar.mem_of_rule? hfound
  obtain ⟨kept, trail, hends⟩ := endsWith_of_derives (takesSome_of_mem hrule) hbody
  obtain ⟨hkept, htokenEnd⟩ := hcaptured.tokenEnd_eq hends (ruleStart_lt_tokenEnd h.toMatch hc)
  obtain ⟨front, ⟨last, flag⟩, rfl⟩ := (List.eq_nil_or_concat kept).resolve_left hkept
  obtain rfl : flag = false := hends.last_eq (last, flag) (by simp)
  have hoffset : v.offset = before.length := by
    rw [hcaptured.offset_eq]
    exact Nat.zero_add _
  refine ⟨before ++ front, last, trail, after, ?_, ?_, ?_, hends.padding.transfer fun _ => rfl⟩
  · have hmarked := hcaptured.marked_eq
    rw [hends.marked_eq, Tree.markedAll, Tree.markedAll, List.append_nil] at hmarked
    simpa using hmarked
  · rw [htokenEnd, hoffset]
    simp [Int.add_assoc]
  · have hshows := Walk.shows_capture hcaptured.plain.anchored rule inner
    rw [← hcaptured.capture_eq] at hshows
    have htext := Tree.length_markedAll false inner
    rw [hends.marked_eq, List.length_append, List.length_map] at htext
    rw [htokenEnd, hshows.stop_eq, hshows.ruleStart_eq, ← htext]
    omega

end Dialect

/-- What is recorded of an accepted text ends with a character that no padding rule took, and
what its rule took behind that is padding: it was taken by padding rules, and the rule of padding
matches it as a whole. -/
theorem occurrences_end_before_padding {limit : Int} {source : Source} {parsed : Parsed}
    (hparsed : ((pico8.parser limit).record source).1 = .ok parsed) {kinds : List OccurrenceKind}
    {o : Occurrence} (ho : o ∈ ((pico8.parser limit).record source).2.occurrences kinds) :
    ∃ tree c before last trail after,
      Derives pico8.grammar (.rule rootName) source.chars (.matched [tree] []) ∧
      c ∈ Walk.initial.captures tree ∧
      o = ((pico8.parser limit).record source).2.occurrence source o.kind c ∧
      0 < o.length ∧ o.stop ≤ c.stop ∧
      tree.marked false = before ++ ((last, false) :: (trail.map (·, true) ++ after)) ∧
      o.stop = before.length + 1 ∧ source.piece o.stop c.stop = trail ∧
      ((pico8.parser limit).isMatch "seps" (source.replaced trail)).1 = .ok true := by
  obtain ⟨tree, htree, hagrees⟩ := derives_of_record hparsed
  have hconfirms := confirms_of_agrees htree.toMatch hagrees
  obtain ⟨c, hc, -, heq⟩ := capture_of_mem_occurrences hconfirms ho
  obtain ⟨before, last, trail, after, hmarked, htokenEnd, hend, hpadding⟩ :=
    ends_of_mem_occurrences htree hc
  have hmem : c ∈ Walk.initial.captures tree := captures_eq tree ▸ (List.mem_filter.mp hc).1
  have hstop : o.stop = c.tokenEnd := by rw [heq, stop_occurrence]
  have hlength : 0 < o.length := by
    have hsize := ((nested_of_whole htree.toMatch).sizes c hc).1
    rw [heq]
    exact Int.sub_pos_of_lt hsize
  have hsplit : source.chars = (before ++ [(last, false)]).map Prod.fst ++
      (trail ++ after.map Prod.fst) := by
    have htext : source.chars = (tree.marked false).map Prod.fst := by
      rw [Tree.map_fst_marked]
      simpa [Tree.textOfAll] using htree.toMatch.text_eq
    rw [htext, hmarked]
    simp [Function.comp_def]
  have hpiece : source.piece o.stop c.stop = trail := by
    rw [hstop]
    apply piece_of_split hsplit _ hend
    rw [htokenEnd]
    simp
  refine ⟨tree, c, before, last, trail, after, htree, hmem, heq, hlength, ?_, hmarked,
    hstop ▸ htokenEnd, hpiece, ?_⟩
  · omega
  · rwa [isMatch_seps_iff, Source.replaced, Source.chars_ofChars]

/-- A compound assignment is recorded without the comment behind it. -/
theorem occurrences_end_before_padding_comment :
    ((pico8.parser 0).record (.ofString "a+=b --c" "cart")).2.occurrences [] =
        [⟨.reassignment, 0, 1, 1, 4, "a+=b".toList, some 1, []⟩] ∧
      ∃ tree c before last trail after, c ∈ Walk.initial.captures tree ∧
        tree.marked false = before ++ ((last, false) :: (trail.map (·, true) ++ after)) ∧
        (4 : Int) = before.length + 1 ∧
        (Source.ofString "a+=b --c" "cart").piece 4 c.stop = trail ∧
        ((pico8.parser 0).isMatch "seps" ((Source.ofString "a+=b --c" "cart").replaced trail)).1 =
          .ok true := by
  obtain ⟨⟨parsed, hparsed⟩, hrecorded⟩ :
      (∃ parsed, ((pico8.parser 0).record (.ofString "a+=b --c" "cart")).1 = .ok parsed) ∧
        ((pico8.parser 0).record (.ofString "a+=b --c" "cart")).2.occurrences [] =
          [⟨.reassignment, 0, 1, 1, 4, "a+=b".toList, some 1, []⟩] := by
    rw [exists_record_eq_ok_iff, recorder_record, recording_eq]
    decide +kernel
  obtain ⟨tree, c, before, last, trail, after, -, hc, -, -, -, hmarked, hlength, hpiece, hmatch⟩ :=
    occurrences_end_before_padding hparsed (hrecorded ▸ List.mem_singleton_self _)
  exact ⟨hrecorded, tree, c, before, last, trail, after, hc, hmarked, hlength, hpiece, hmatch⟩

end CartLua
