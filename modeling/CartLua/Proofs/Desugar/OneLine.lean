import CartLua.Proofs.Derivation.Composition
import CartLua.Proofs.Occurrence.RecordsFit

/-!
# Literals on one line

A string literal that is written for one line has no line end.  For a long string
that is so whatever its value.  In a quoted string a line end stands only in an
escape: right after the backslash, or among the blanks that an escape skips.  The
reader of quoted literals takes just these apart from the rest.
-/

namespace CartLua

open Dialect

/-- Whether a text stands on one line. -/
def Unbroken (cs : List Char) : Prop := ∀ c ∈ cs, OneLine.isLineEnd c = false

namespace Unbroken

variable {c : Char} {cs ds : List Char}

theorem nil : Unbroken [] := fun _ h => absurd h List.not_mem_nil

theorem cons (hc : OneLine.isLineEnd c = false) (hcs : Unbroken cs) : Unbroken (c :: cs) := by
  intro d hd
  rcases List.mem_cons.mp hd with rfl | hd
  · exact hc
  · exact hcs d hd

theorem append (hcs : Unbroken cs) (hds : Unbroken ds) : Unbroken (cs ++ ds) := by
  intro d hd
  rcases List.mem_append.mp hd with hd | hd
  · exact hcs d hd
  · exact hds d hd

theorem count_eq_zero (hcs : Unbroken cs) : cs.count '\n' = 0 := by
  rw [List.count_eq_zero]
  intro hmem
  have hnone := hcs '\n' hmem
  revert hnone
  decide

end Unbroken

namespace OneLine

/-! ## Long strings -/

theorem unbroken_escapeBreaks (cs : List Char) : Unbroken (escapeBreaks cs) := by
  fun_induction escapeBreaks cs with
  | case1 => exact .nil
  | case2 rest ih => exact .cons rfl (.cons rfl ih)
  | case3 rest ih => exact .cons rfl (.cons rfl ih)
  | case4 rest _ ih => exact .cons rfl (.cons rfl ih)
  | case5 rest _ ih => exact .cons rfl (.cons rfl ih)
  | case6 c rest _ _ hreturn hfeed ih =>
      refine .cons ?_ ih
      have hc : c ≠ '\n' ∧ c ≠ '\r' := ⟨fun h => hfeed h, fun h => hreturn h⟩
      simp [isLineEnd, hc]

theorem unbroken_quote (value : List Char) : Unbroken (quote value) :=
  .cons rfl (.append (unbroken_escapeBreaks _) (.cons rfl .nil))

/-! ## Quoted strings -/

/-- Whether the reader of quoted literals gets over a text without a line end, once it is
before an ordinary character: then it does so with whatever follows as well. -/
def Flat (t : List Char) : Prop :=
  ∀ u, (∀ place, place ≠ .escape → Unbroken (flatQuoted place u)) →
    ∀ place, place ≠ .escape → Unbroken (flatQuoted place (t ++ u))

theorem Flat.nil : Flat [] := fun _ hu => hu

theorem Flat.append {t u : List Char} (ht : Flat t) (hu : Flat u) : Flat (t ++ u) := by
  intro v hv
  rw [List.append_assoc]
  exact ht (u ++ v) (hu v hv)

theorem Flat.unbroken {t : List Char} (ht : Flat t) : Unbroken (flatQuoted .plain t) := by
  have hend : ∀ place, place ≠ .escape → Unbroken (flatQuoted place []) := by
    intro place hplace
    cases place with
    | escape => exact absurd rfl hplace
    | _ => exact .nil
  have hflat := ht [] hend .plain (by decide)
  rwa [List.append_nil] at hflat

/-- An ordinary character is written as it is, or dropped among blanks. -/
theorem Flat.cons {c : Char} {t : List Char} (hbackslash : c ≠ '\\') (hc : isLineEnd c = false)
    (ht : Flat t) : Flat (c :: t) := by
  intro u hu place hplace
  have hnot : c ≠ '\n' ∧ c ≠ '\r' := by simpa [isLineEnd] using hc
  have hplain : plainStep c = ([c], .plain) := by rw [plainStep, if_neg hbackslash]
  have hnext : ∀ place, place ≠ .escape → Unbroken (flatQuoted place (t ++ u)) := ht u hu
  have hone : Unbroken ([c] ++ flatQuoted .plain (t ++ u)) :=
    .append (.cons hc .nil) (hnext .plain (by decide))
  cases place with
  | escape => exact absurd rfl hplace
  | plain => simpa only [List.cons_append, flatQuoted, flatStep, hplain] using hone
  | blanks =>
      simp only [List.cons_append, flatQuoted, flatStep]
      split
      · exact hnext .blanks (by decide)
      · simpa only [hplain] using hone
  | afterReturn =>
      simpa only [List.cons_append, flatQuoted, flatStep, if_neg hnot.1, hplain] using hone
  | afterFeed =>
      simpa only [List.cons_append, flatQuoted, flatStep, if_neg hnot.2, hplain] using hone

theorem Flat.of_forall {t : List Char} (ht : ∀ c ∈ t, c ≠ '\\' ∧ isLineEnd c = false) : Flat t := by
  induction t with
  | nil => exact .nil
  | cons c t ih =>
      obtain ⟨hbackslash, hc⟩ := ht c List.mem_cons_self
      exact .cons hbackslash hc (ih fun d hd => ht d (List.mem_cons_of_mem c hd))

/-- A backslash opens an escape wherever it is read. -/
theorem flatQuoted_backslash {place : Place} (hplace : place ≠ .escape) (t : List Char) :
    flatQuoted place ('\\' :: t) = flatQuoted .escape t := by
  cases place with
  | escape => exact absurd rfl hplace
  | _ => rfl

/-- The escape of one character, and ordinary characters that belong to it. -/
theorem Flat.escape {c : Char} {t : List Char} (hz : c ≠ 'z') (hc : isLineEnd c = false)
    (ht : Flat t) : Flat ('\\' :: c :: t) := by
  intro u hu place hplace
  have hnot : c ≠ '\n' ∧ c ≠ '\r' := by simpa [isLineEnd] using hc
  have hnext := ht u hu .plain (by decide)
  rw [List.cons_append, List.cons_append, flatQuoted_backslash hplace]
  simp only [flatQuoted, flatStep, if_neg hz, if_neg hnot.1, if_neg hnot.2]
  exact .append (.cons rfl (.cons hc .nil)) hnext

/-- An escaped line break of one or two characters. -/
theorem Flat.escapedBreak {t : List Char}
    (ht : t ∈ [['\r', '\n'], ['\n', '\r'], ['\r'], ['\n']]) : Flat ('\\' :: t) := by
  intro u hu place hplace
  have hwritten : ∀ place, place ≠ .escape → Unbroken (['\\', 'n'] ++ flatQuoted place u) :=
    fun place hplace => .append (.cons rfl (.cons rfl .nil)) (hu place hplace)
  rw [List.cons_append, flatQuoted_backslash hplace]
  simp only [List.mem_cons, List.not_mem_nil, or_false] at ht
  rcases ht with rfl | rfl | rfl | rfl
  · exact hwritten .plain (by decide)
  · exact hwritten .plain (by decide)
  · exact hwritten .afterReturn (by decide)
  · exact hwritten .afterFeed (by decide)

/-- An escape that skips blanks drops them. -/
theorem Flat.skip {t : List Char} (ht : ∀ c ∈ t, Text.isBlank c = true) :
    Flat ('\\' :: 'z' :: t) := by
  intro u hu place hplace
  have hskipped : Unbroken (flatQuoted .blanks (t ++ u)) := by
    induction t with
    | nil => exact hu .blanks (by decide)
    | cons c t ih =>
        simp only [List.cons_append, flatQuoted, flatStep, if_pos (ht c List.mem_cons_self)]
        exact ih fun d hd => ht d (List.mem_cons_of_mem c hd)
  rw [List.cons_append, List.cons_append, flatQuoted_backslash hplace]
  exact .append (.cons rfl (.cons rfl .nil)) hskipped

end OneLine

/-! ## What patterns take -/

namespace Pattern

mutual

/-- Whether a pattern takes only characters that are allowed, and uses no rule. -/
def takesOnly (allowed : Char → Bool) : Pattern → Bool
  | terminal (.oneOf chars false) => chars.all allowed
  | terminal (.literal chars false) => chars.all allowed
  | terminal _ => false
  | seq items => allTakeOnly allowed items
  | choice alternatives => allTakeOnly allowed alternatives
  | star _ body => body.takesOnly allowed
  | plus _ body => body.takesOnly allowed
  | opt body => body.takesOnly allowed
  | atMost _ body => body.takesOnly allowed
  | lookahead .. => true
  | skipTo _ => false
  | repeatUntil _ stop body => stop.takesOnly allowed && body.takesOnly allowed
  | must body => body.takesOnly allowed
  | rule _ => false
  | ref _ _ => false

/-- Whether all of several patterns take only characters that are allowed. -/
def allTakeOnly (allowed : Char → Bool) : List Pattern → Bool
  | [] => true
  | item :: items => item.takesOnly allowed && allTakeOnly allowed items

end

theorem takesOnly_of_mem {allowed : Char → Bool} {items : List Pattern} {item : Pattern}
    (hitems : allTakeOnly allowed items = true) (hmem : item ∈ items) :
    item.takesOnly allowed = true :=
  forall_mem_of_cons (P := fun items => allTakeOnly allowed items = true)
    (fun _ _ h => by rwa [allTakeOnly, Bool.and_eq_true] at h) hitems hmem

end Pattern

/-- A match of a pattern that takes only allowed characters. -/
theorem Match.allowed {g : Grammar} (allowed : Char → Bool) {p : Pattern} {s rest : List Char}
    {parts : List Tree} (h : Match g p s parts rest) (hp : p.takesOnly allowed = true) :
    ∀ c ∈ Tree.textOfAll parts, allowed c = true := by
  induction h with
  | @take t s count hscan =>
      have hmatch : Match g (.terminal t) s [.chars (s.take count)] (s.drop count) := .take hscan
      cases t with
      | literal cs anyCase =>
          cases anyCase with
          | true => cases hp
          | false =>
              rw [(Match.of_literal hmatch).1]
              simpa [Tree.textOfAll, Tree.text, Pattern.takesOnly] using hp
      | oneOf chars negated =>
          cases negated with
          | true => cases hp
          | false =>
              obtain ⟨c, hc, hparts, -⟩ := Match.of_oneOf hmatch
              rw [hparts]
              intro d hd
              simp only [Tree.textOfAll, Tree.text, List.append_nil, List.mem_singleton] at hd
              subst hd
              simp only [Pattern.takesOnly, List.all_eq_true] at hp
              exact hp d (by simpa using hc)
      | _ => cases hp
  | stay => exact fun _ h => absurd h List.not_mem_nil
  | seqNil => exact fun _ h => absurd h List.not_mem_nil
  | seqCons _ _ ihfirst ihothers =>
      rw [Pattern.takesOnly, Pattern.allTakeOnly, Bool.and_eq_true] at hp
      rw [Tree.textOfAll_append, List.forall_mem_append]
      exact ⟨ihfirst hp.1, ihothers hp.2⟩
  | choice hmem _ ih => exact ih (Pattern.takesOnly_of_mem hp hmem)
  | starNil => exact fun _ h => absurd h List.not_mem_nil
  | starCons _ _ ihround ihothers =>
      rw [Tree.textOfAll_append, List.forall_mem_append]
      exact ⟨ihround hp, ihothers hp⟩
  | plus _ _ ihround ihothers =>
      rw [Tree.textOfAll_append, List.forall_mem_append]
      exact ⟨ihround hp, ihothers hp⟩
  | optNil => exact fun _ h => absurd h List.not_mem_nil
  | opt _ ih => exact ih hp
  | atMostNil => exact fun _ h => absurd h List.not_mem_nil
  | atMostCons _ _ ihround ihothers =>
      rw [Tree.textOfAll_append, List.forall_mem_append]
      exact ⟨ihround hp, ihothers hp⟩
  | lookahead => exact fun _ h => absurd h List.not_mem_nil
  | skipHere _ _ => cases hp
  | skipPass _ _ => cases hp
  | untilHere _ ih =>
      rw [Pattern.takesOnly, Bool.and_eq_true] at hp
      exact ih hp.1
  | untilMore _ _ ihround ihothers =>
      have hboth := hp
      rw [Pattern.takesOnly, Bool.and_eq_true] at hboth
      rw [Tree.textOfAll_append, List.forall_mem_append]
      exact ⟨ihround hboth.2, ihothers hp⟩
  | must _ ih => exact ih hp
  | rule _ _ _ => cases hp
  | ref _ _ => cases hp

namespace Dialect

variable {s rest : List Char} {parts : List Tree}

/-- Whether a character may stand in an escape after its first character. -/
def ordinary (c : Char) : Bool := c != '\\' && c != 'z' && !OneLine.isLineEnd c

/-- What an escape takes is read without a line end. -/
theorem flat_of_escaped (h : Match pico8.grammar escaped.body s parts rest) :
    OneLine.Flat (Tree.textOfAll parts) := by
  simp only [escaped, Pattern.ifMust, List.map_cons, List.map_nil] at h
  rw [Match.seq_cons_iff] at h
  obtain ⟨_, middle, _, hmark, hothers, rfl⟩ := h
  rw [Match.seq_cons_iff] at hothers
  obtain ⟨kind, _, _, hkind, hnil, rfl⟩ := hothers
  obtain ⟨rfl, rfl⟩ := Match.seq_nil_iff.mp hnil
  obtain ⟨c, hc, rfl, -⟩ := Match.of_oneOf hmark
  have hbackslash : c = '\\' := by simpa using hc
  subst hbackslash
  have hordinary : ∀ p : Pattern, p.takesOnly ordinary = true →
      p.nullable (recordable pico8).traits.nullable = false →
      Match pico8.grammar p middle kind rest → OneLine.Flat ('\\' :: Tree.textOfAll kind) := by
    intro p hp hnullable hmatch
    have hallowed := hmatch.allowed ordinary hp
    have hne := hmatch.text_ne_nil (recordable pico8).toSound hnullable
    cases htext : Tree.textOfAll kind with
    | nil => exact absurd htext hne
    | cons d t =>
        rw [htext] at hallowed
        simp only [ordinary, Bool.and_eq_true, bne_iff_ne, Bool.not_eq_true'] at hallowed
        have hd := hallowed d List.mem_cons_self
        refine .escape hd.1.2 hd.2 (.of_forall fun e he => ?_)
        have he := hallowed e (List.mem_cons_of_mem d he)
        exact ⟨he.1.1, he.2⟩
  rw [Match.must_iff, Match.choice_iff] at hkind
  obtain ⟨item, hitem, hmatch⟩ := hkind
  simp only [Tree.textOfAll_append, Tree.textOfAll, Tree.text, List.append_nil]
  simp only [List.mem_cons, List.not_mem_nil, or_false] at hitem
  rcases hitem with rfl | rfl | rfl | rfl | rfl | rfl
  · exact hordinary _ (by decide) (by decide) hmatch
  · exact hordinary _ (by decide) (by decide) hmatch
  · exact hordinary _ (by decide) (by decide) hmatch
  · obtain ⟨c, hc, rfl, -⟩ := Match.of_oneOf hmatch
    have hall : "abfnrtv\\\"'0".toList.all (fun c => c != 'z' && !OneLine.isLineEnd c) = true := by
      decide
    have hchar := List.all_eq_true.mp hall c (by simpa using hc)
    simp only [Bool.and_eq_true, bne_iff_ne, Bool.not_eq_true'] at hchar
    obtain ⟨hz, hend⟩ := hchar
    exact .escape hz hend .nil
  · apply OneLine.Flat.escapedBreak
    obtain ⟨item, hitem, hbreak⟩ := Match.choice_iff.mp hmatch
    simp only [List.mem_cons, List.not_mem_nil, or_false] at hitem
    rcases hitem with rfl | rfl | rfl
    · rw [(Match.of_literal hbreak).1]
      decide
    · rw [(Match.of_literal hbreak).1]
      decide
    · obtain ⟨c, hc, rfl, -⟩ := Match.of_oneOf hbreak
      have hend : c = '\r' ∨ c = '\n' := by simpa using hc
      rcases hend with rfl | rfl <;> decide
  · simp only [skipSpaces, Pattern.inOrder] at hmatch
    rw [Match.seq_cons_iff] at hmatch
    obtain ⟨_, _, _, hz, hblanks, rfl⟩ := hmatch
    obtain ⟨c, hc, rfl, -⟩ := Match.of_oneOf hz
    have hletter : c = 'z' := by simpa using hc
    subst hletter
    have hallowed := hblanks.allowed Text.isBlank (by decide)
    simpa [Tree.textOfAll, Tree.text] using OneLine.Flat.skip hallowed

/-- An escape does not fail after a backslash. -/
theorem not_failed_escaped {s : List Char} :
    ¬Derives pico8.grammar (.call "escaped") ('\\' :: s) .failed := by
  intro h
  have hmem : escaped ∈ rules pico8 := by simp [rules, lexicalRules]
  have hmark := failed_ifMust_iff.mp ((failed_call_iff hmem).mp h)
  exact startsOutside_cons.mp (failed_oneOf_iff.mp hmark) (by decide)

/-- A character of a quoted string is an escape, or neither a line end nor a backslash. -/
theorem flat_of_character (h : Derives pico8.grammar characterRule.body s (.matched parts rest)) :
    OneLine.Flat (Tree.textOfAll parts) := by
  have hmem : escaped ∈ rules pico8 := by simp [rules, lexicalRules]
  cases h with
  | choiceHere first _ =>
      obtain ⟨inner, rfl, hinner⟩ := of_call hmem first.toMatch
      simpa [Tree.textOfAll, Tree.text] using flat_of_escaped hinner
  | choiceNext hescape others =>
      obtain ⟨item, hitem, hmatch⟩ := Match.choice_iff.mp others.toMatch
      obtain rfl := List.mem_singleton.mp hitem
      obtain ⟨c, hc, rfl, rfl⟩ := Match.of_oneOf hmatch
      have hend : OneLine.isLineEnd c = false := by
        simp only [OneLine.isLineEnd]
        simpa [and_comm] using hc
      apply OneLine.Flat.cons _ hend .nil
      rintro rfl
      exact not_failed_escaped hescape

/-- The characters of a quoted string up to the quote that ends it. -/
theorem flat_of_characters {quote : Char} (hbackslash : quote ≠ '\\')
    (hquote : OneLine.isLineEnd quote = false) {site : Site}
    (h : Match pico8.grammar (.repeatUntil site (.terminal (.oneOf [quote] false))
      (.call "character")) s parts rest)
    (hcharacters : ∀ n ∈ Tree.nodesOfAll parts, n.1 = characterRule →
      OneLine.Flat (Tree.textOfAll n.2)) : OneLine.Flat (Tree.textOfAll parts) := by
  have hmem : characterRule ∈ rules pico8 := by simp [rules, lexicalRules]
  generalize hp :
    Pattern.repeatUntil site (.terminal (.oneOf [quote] false)) (.call "character") = p at h
  induction h with
  | untilHere here _ =>
      cases hp
      obtain ⟨c, hc, rfl, -⟩ := Match.of_oneOf here
      have hstop : c = quote := by simpa using hc
      subst hstop
      exact .cons hbackslash hquote .nil
  | untilMore round _ _ ihothers =>
      cases hp
      obtain ⟨inner, rfl, -⟩ := of_call hmem round
      rw [Tree.textOfAll_append]
      apply OneLine.Flat.append
      · have hfirst :=
          hcharacters (characterRule, inner) (by simp [Tree.nodesOfAll, Tree.nodes]) rfl
        simpa [Tree.textOfAll, Tree.text] using hfirst
      · apply ihothers _ rfl
        intro n hn
        apply hcharacters n
        rw [Tree.nodesOfAll_append]
        exact List.mem_append_right _ hn
  | _ => cases hp

/-- A quoted string is read without a line end. -/
theorem flat_of_quoted {quote : Char} (hbackslash : quote ≠ '\\')
    (hquote : OneLine.isLineEnd quote = false)
    (h : Derives pico8.grammar
      (.ifMust (.terminal (.oneOf [quote] false))
        [.untilMatch (.terminal (.oneOf [quote] false)) [.call "character"]])
      s (.matched parts rest)) :
    OneLine.Flat (Tree.textOfAll parts) := by
  have hcharacters : ∀ n ∈ Tree.nodesOfAll parts, n.1 = characterRule →
      OneLine.Flat (Tree.textOfAll n.2) := by
    rintro ⟨rule, inner⟩ hn rfl
    obtain ⟨-, _, _, hinner⟩ := h.of_mem_nodes _ hn
    exact flat_of_character hinner
  have hmatch := h.toMatch
  rw [Pattern.ifMust, Match.seq_cons_iff] at hmatch
  obtain ⟨_, _, _, hopen, hothers, rfl⟩ := hmatch
  obtain ⟨c, hc, rfl, -⟩ := Match.of_oneOf hopen
  have hstart : c = quote := by simpa using hc
  subst hstart
  rw [List.map_cons, Match.seq_cons_iff] at hothers
  obtain ⟨_, _, _, hcontent, hnil, rfl⟩ := hothers
  obtain ⟨rfl, rfl⟩ := Match.seq_nil_iff.mp hnil
  rw [List.append_nil] at hcharacters ⊢
  refine .cons hbackslash hquote
    (flat_of_characters hbackslash hquote (Match.must_iff.mp hcontent) ?_)
  intro n hn
  exact hcharacters n hn

/-- A string in long brackets begins with a bracket. -/
theorem head_of_longString (h : Match pico8.grammar longString.body s parts rest) :
    (Tree.textOfAll parts).head? = some '[' := by
  have htext := h.text_eq
  have hne := h.text_ne_nil (recordable pico8).toSound (by decide)
  cases h with
  | stay hscan => cases Terminal.nullable_of_stay hscan
  | @take _ _ count hscan =>
      rw [Terminal.scan] at hscan
      split at hscan
      · rename_i hstarts
        simp only [Tree.textOfAll, Tree.text, List.append_nil] at hne ⊢
        simp only [Text.startsAt, Bool.and_eq_true, beq_iff_eq, List.getElem?_toArray] at hstarts
        rw [List.head?_take, if_neg, List.head?_eq_getElem?]
        · exact hstarts.1
        · rintro rfl
          exact hne rfl
      · cases hscan

/-- A string literal that is written for one line has no line end. -/
theorem unbroken_of_literalString {replacement : List Char}
    (h : Derives pico8.grammar literalString.body s (.matched parts rest))
    (hflat : OneLine.flatString? (Tree.textOfAll parts) = some (some replacement)) :
    Unbroken replacement := by
  have hdouble : doubleQuoteString ∈ rules pico8 := by simp [rules, lexicalRules]
  have hsingle : singleQuoteString ∈ rules pico8 := by simp [rules, lexicalRules]
  have hlong : longString ∈ rules pico8 := by simp [rules, lexicalRules]
  have hquoted : (Tree.textOfAll parts).head? ≠ some '[' → OneLine.Flat (Tree.textOfAll parts) := by
    intro hhead
    obtain ⟨item, hitem, hmatch⟩ := Match.choice_iff.mp h.toMatch
    simp only [List.mem_cons, List.not_mem_nil, or_false] at hitem
    rcases hitem with rfl | rfl | rfl
    · obtain ⟨inner, rfl, -⟩ := of_call hdouble hmatch
      obtain ⟨-, _, _, hinner⟩ := h.of_mem_nodes (doubleQuoteString, inner) (.head _)
      simpa [Tree.textOfAll, Tree.text] using flat_of_quoted (by decide) (by decide) hinner
    · obtain ⟨inner, rfl, -⟩ := of_call hsingle hmatch
      obtain ⟨-, _, _, hinner⟩ := h.of_mem_nodes (singleQuoteString, inner) (.head _)
      simpa [Tree.textOfAll, Tree.text] using flat_of_quoted (by decide) (by decide) hinner
    · obtain ⟨inner, rfl, hinner⟩ := of_call hlong hmatch
      apply absurd (head_of_longString hinner)
      simpa [Tree.textOfAll, Tree.text] using hhead
  rw [OneLine.flatString?] at hflat
  split at hflat
  · split at hflat
    · obtain ⟨value, -, hvalue⟩ := Option.map_eq_some_iff.mp hflat
      cases hvalue
      exact OneLine.unbroken_quote value
    · rename_i hhead
      cases hflat
      exact (hquoted hhead).unbroken
  · cases hflat

end Dialect

/-- Whether a comment or a string has no line end when it is written for one line. -/
def Lexeme.FlattensOnLine (source : Source) (lexeme : Lexeme) : Prop :=
  ∀ replacement, Desugar.flatLexeme lexeme.kind (source.piece lexeme.offset lexeme.stop) =
    .ok (some replacement) → Unbroken replacement

namespace Dialect

/-- The comments and strings of an accepted text have no line end when they are written for
one line. -/
theorem flattensOnLine_of_mem_captures {source : Source} {tree : Tree}
    (h : Derives pico8.grammar (.rule rootName) source.chars (.matched [tree] []))
    {lexeme : Lexeme}
    (hlexeme : lexeme ∈ (Walk.initial.captures tree).filterMap Capture.lexeme?) :
    lexeme.FlattensOnLine source := by
  intro replacement hreplacement
  obtain ⟨c, hc, hkind⟩ := List.mem_filterMap.mp hlexeme
  obtain ⟨kind, hrule, rfl⟩ := Option.map_eq_some_iff.mp hkind
  rw [Recorder.lexemeKind?] at hrule
  split at hrule
  · cases hrule
    cases hreplacement
    exact .cons rfl .nil
  · split at hrule
    · rename_i hname
      cases hrule
      rw [captures_eq] at hc
      obtain ⟨n, hn, before, after, hsplit, hshows⟩ :=
        Walk.node_of_mem_capturesOfAll anchored_initial [tree] c hc
      obtain ⟨⟨name, hfound⟩, _, _, hinner⟩ := h.of_mem_nodes n hn
      have hmem : n.1 ∈ rules pico8 := rules_grammar pico8 ▸ Grammar.mem_of_rule? hfound
      have hliteral : literalString ∈ rules pico8 := by simp [rules, lexicalRules]
      obtain hrule : n.1 = literalString :=
        eq_of_name_eq hmem hliteral (hshows.rule_eq.symm.trans hname)
      rw [show Walk.initial.offset = 0 from rfl, Nat.zero_add] at hshows
      have hstart : c.start = c.ruleStart := hshows.start_eq (by rw [hrule]; rfl)
      have hpiece : source.piece c.start c.stop = Tree.textOfAll n.2 := by
        have htext := h.toMatch.text_eq
        rw [List.append_nil] at htext
        apply piece_of_split (htext.trans hsplit)
        · rw [hstart, hshows.ruleStart_eq]
        · rw [hstart, hshows.stop_eq]
      rw [hrule] at hinner
      simp only [Desugar.flatLexeme, hpiece] at hreplacement
      split at hreplacement
      · rename_i hflat
        cases hreplacement
        exact unbroken_of_literalString hinner hflat
      · cases hreplacement
    · cases hrule

end Dialect

end CartLua
