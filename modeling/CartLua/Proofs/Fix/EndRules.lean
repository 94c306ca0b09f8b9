import CartLua.Proofs.Fix.EndKeyword

/-!
# Rules that overlook how the keyword is set off

Most rules of the dialect are built from patterns that overlook it, which is checked on their
bodies.  Comments and quoted strings look at line ends.  A comment that ends with its line is closed
before the keyword, since the last line has none; and a string has its closing quote before the
keyword, or the text is in error.

A statement may leave the break before the keyword to the padding behind it, or take it.  Padding
makes good for this.
-/

namespace CartLua

open Dialect Terminal

/-- As related texts, or else the one has the break still to come that the other is past. -/
inductive Straying (P : List Char → Prop) : List Char → List Char → Prop
  | tailed {s t : List Char} (tailed : Tailed P s t) : Straying P s t
  | strayed : Straying P ('\n' :: "end".toList) "end".toList

theorem Straying.anything {P : List Char → Prop} {s t : List Char} (h : Straying P s t) :
    Straying Anything s t := by
  cases h with
  | tailed h => exact .tailed h.anything
  | strayed => exact .strayed

namespace Pattern

/-- Whether a pattern is a statement with padding behind it. -/
def isStatementRound : Pattern → Bool
  | seq [ref none first, ref none second] => first == "statement" && second == "seps"
  | _ => false

mutual

/-- Whether a pattern overlooks how the keyword is set off, when some rules do. -/
def overlooksBreak (names : List String) : Pattern → Bool
  | terminal t => t.overlooksBreak
  | seq items => allOverlookBreak names items
  | choice alternatives => allOverlookBreak names alternatives
  | star _ body => body.overlooksBreak names
  | plus _ body => body.overlooksBreak names
  | opt body => body.overlooksBreak names
  | atMost _ body => body.overlooksBreak names
  | lookahead _ body => body.overlooksBreak names
  | skipTo _ => false
  | repeatUntil _ stop body =>
      stop.overlooksBreak names && (body.isStatementRound || body.overlooksBreak names)
  | must body => body.overlooksBreak names
  | rule _ => false
  | ref _ name => names.contains name

/-- Whether several patterns overlook it. -/
def allOverlookBreak (names : List String) : List Pattern → Bool
  | [] => true
  | item :: items => item.overlooksBreak names && allOverlookBreak names items

end

theorem eq_of_isStatementRound {p : Pattern} (h : p.isStatementRound = true) :
    p = .seq [.call "statement", gap] := by
  unfold isStatementRound at h
  split at h
  · simp only [Bool.and_eq_true, beq_iff_eq] at h
    obtain ⟨rfl, rfl⟩ := h
    rfl
  · cases h

end Pattern

namespace Dialect

open Pattern

/-- The rules of the dialect that overlook how the keyword is set off. -/
def overlooking : List String :=
  ((rules pico8).map Rule.name).filter fun name =>
    not (["short_comment", "interpreter", "inline_space", "short_if_statement", "escaped",
      "character", "statement", rootName].contains name)

variable {P P' : List Char → Prop} {Q : List Char → List Char → Prop} {n depth : Nat}
  {s t : List Char} {q : Char}

/-- A rule overlooks what its body does. -/
theorem overlooks_call {R : List Char → List Char → Prop} {rule : Rule} (hrule : rule ∈ rules pico8)
    (h : Overlooks pico8.grammar R Q (n - 2) rule.body) :
    Overlooks pico8.grammar R Q n (.call rule.name) :=
  .ref (.rule (rule?_grammar hrule) h)

/-! ## Comments -/

/-- The rest of a line is the same whatever the line feed at its end is followed by. -/
theorem overlooks_restOfLine : Overlooks pico8.grammar (Tailed ('\n' ∈ ·)) (Tailed Anything) n
    (.skipTo (.terminal (.endOfLine true))) := by
  apply Overlooks.of_ended .same
  intro u hu hmem x hx _
  have hdeep := hx.lt_of_outgrows 1 rfl
  obtain ⟨line, v, rfl, hline⟩ := List.eq_append_cons_of_mem hmem
  have htaken : ∀ c, Takes pico8.grammar (.skipTo (.terminal (.endOfLine true)))
      (endedBy c (line ++ '\n' :: v)) (endedBy c v) := by
    intro c
    rw [endedBy_append, endedBy_cons]
    exact takes_restOfLine.mpr ⟨line, hline, .inl rfl⟩
  obtain ⟨parts, hparts⟩ := htaken '\n'
  obtain ⟨more, hmore⟩ := htaken ' '
  cases hx.erase.deterministic hparts
  have huncommented : Uncommented v := (hu.of_append (u := line)).of_append (u := ['\n'])
  have hstays : (Pattern.skipTo (.terminal (.endOfLine true))).staysIn pico8 2 = true := rfl
  exact ⟨_, .of_staysIn hstays hmore hdeep, .matched (.ended huncommented trivial)⟩

/-- Whether a long bracket is opened, or the line ends, before the keyword. -/
def LeavesComment (u : List Char) : Prop := '\n' ∉ u → ∃ level, openingBracket level <+: u

theorem overlooks_dashes : Overlooks pico8.grammar (Tailed Anything) (Tailed LeavesComment) n
    (.text "--") := by
  apply Overlooks.of_ended .same
  intro u hu _ x hx _
  cases hx with
  | terminal =>
      refine ⟨_, .terminal _ _, ?_⟩
      by_cases hdashes : "--".toList <+: u
      · obtain ⟨v, rfl⟩ := hdashes
        rw [endedBy_append, endedBy_append, answer_literal, answer_literal]
        exact .matched (.ended hu.of_append (hu v (List.suffix_refl _)))
      · have hmiss : ∀ c ∈ breaks, ¬"--".toList <+: endedBy c u := by
          intro c hc
          rw [prefix_endedBy_iff (by rcases mem_breaks.mp hc with rfl | rfl <;> decide)]
          exact hdashes
        rw [answer_literal_eq_failed (hmiss '\n' (by decide)),
          answer_literal_eq_failed (hmiss ' ' (by decide))]
        exact .failed

/-- A comment is closed before the keyword. -/
theorem overlooks_comment : Overlooks pico8.grammar (Tailed Anything) (Tailed Anything) n
    comment.body := by
  have hlong : longString ∈ rules pico8 := by simp [rules, lexicalRules]
  have hshort : shortComment ∈ rules pico8 := by simp [rules, lexicalRules]
  refine .seq_cons overlooks_dashes fun _ => .seq_cons (.choice_cons ?_ ?_) fun _ =>
    .seq_nil fun _ _ => id
  · have hbracket : Overlooks pico8.grammar (Tailed Anything) (Tailed Anything) (n - 1 - 1)
        (.call "long_string") := overlooks_call hlong (.terminal rfl)
    exact hbracket.mono (fun _ _ h => h.anything) fun _ _ => id
  · apply Overlooks.choice
    intro item hitem
    obtain rfl := List.mem_singleton.mp hitem
    have hline : Overlooks pico8.grammar (Tailed ('\n' ∈ ·)) (Tailed Anything) (n - 1 - 1)
        (.call "short_comment") := overlooks_call hshort overlooks_restOfLine
    refine hline.mono (fun s t h => ?_) fun _ _ => id
    -- Where no long bracket is opened, the line has to end.
    obtain ⟨hst, hfailed⟩ := h
    cases hst with
    | same s => exact .same s
    | @ended u hu hholds =>
        refine .ended hu (Decidable.byContradiction fun hmem => ?_)
        obtain ⟨level, hopens⟩ := hholds hmem
        have hunopened := failed_longBracket_iff.mp ((failed_call_iff hlong).mp hfailed.erase)
        exact hunopened level (hopens.trans (List.prefix_append _ _))

/-! ## Bodies -/

/-- Whether within a depth the rules overlook how the keyword is set off.  A statement may
stray. -/
structure OverlookedBelow (depth : Nat) : Prop where
  rules : ∀ n < depth, ∀ name, overlooking.contains name = true →
    Overlooks pico8.grammar (Tailed Anything) (Tailed Anything) n (.rule name)
  statement : ∀ n < depth,
    Overlooks pico8.grammar (Tailed Anything) (Straying Anything) n (.rule "statement")

namespace OverlookedBelow

theorem ref (h : OverlookedBelow depth) (hn : n ≤ depth) {site : Site} {name : String}
    (hname : overlooking.contains name = true) :
    Overlooks pico8.grammar (Tailed Anything) (Tailed Anything) n (.ref site name) := by
  cases n with
  | zero => exact .zero
  | succ n => exact .ref (h.rules n hn name hname)

/-- Padding gets past the break, whether or not it is still to come. -/
theorem gap (h : OverlookedBelow depth) (hn : n ≤ depth) :
    Overlooks pico8.grammar (Straying Anything) (Tailed Anything) n Dialect.gap := by
  intro s t hst x hx hunbroken
  cases hst with
  | tailed hst => exact h.ref hn (by decide) hst hx hunbroken
  | strayed =>
      have hblank : Takes pico8.grammar (.call "sep") ('\n' :: "end".toList) "end".toList :=
        takes_sep.mpr ⟨['\n'], .blank (by decide), rfl⟩
      obtain ⟨parts, hsep⟩ := hblank
      cases hx with
      | ref linked hrule =>
          cases hrule with
          | @rule _ _ found _ x hfound hbody =>
              cases (rule?_grammar mem_seps).symm.trans hfound
              cases hbody with
              | @starMore _ _ _ _ _ _ x round others =>
                  cases round.erase.deterministic hsep
                  refine ⟨_, .ref linked (.rule hfound others), ?_⟩
                  cases x with
                  | matched more rest => exact .matched (.same rest)
                  | failed => exact .failed
                  | broken => exact absurd rfl hunbroken
              | starStop round stops =>
                  cases round.erase.deterministic hsep
                  exact absurd trivial stops

theorem statementRound (h : OverlookedBelow depth) (hn : n ≤ depth) :
    Overlooks pico8.grammar (Tailed Anything) (Tailed Anything) n
      (.seq [.call "statement", Dialect.gap]) := by
  have hstatement : Overlooks pico8.grammar (Tailed Anything) (Straying Anything) (n - 1)
      (.call "statement") := by
    rcases n with _ | _ | n
    · exact .zero
    · exact .zero
    · exact .ref (h.statement n (by omega))
  exact .seq_cons hstatement fun _ => .seq_cons (h.gap (by omega)) fun _ => .seq_nil fun _ _ => id

mutual

/-- What is checked of a pattern holds of it. -/
theorem overlooks (h : OverlookedBelow depth) : (p : Pattern) → {n : Nat} → n ≤ depth →
    p.overlooksBreak overlooking = true →
      Overlooks pico8.grammar (Tailed Anything) (Tailed Anything) n p
  | .terminal _, _, _, hp => .terminal hp
  | .seq items, _, hn, hp => .seq (h.overlooksAll items (by omega) hp)
  | .choice items, _, hn, hp => .choice (h.overlooksAll items (by omega) hp)
  | .star _ body, _, hn, hp => .star (h.overlooks body (by omega) hp)
  | .plus _ body, _, hn, hp =>
      have hbody := h.overlooks body (by omega) hp
      .plus hbody (.star hbody)
  | .opt body, _, hn, hp => .opt (h.overlooks body (by omega) hp) fun _ _ => id
  | .atMost _ body, _, hn, hp => .atMost (h.overlooks body (by omega) hp)
  | .lookahead _ body, _, hn, hp => .lookahead (h.overlooks body (by omega) hp)
  | .skipTo _, _, _, hp => nomatch hp
  | .repeatUntil _ stop body, _, hn, hp => by
      simp only [Pattern.overlooksBreak, Bool.and_eq_true, Bool.or_eq_true] at hp
      apply Overlooks.repeatUntil (h.overlooks stop (by omega) hp.1)
      rcases hp.2 with hround | hbody
      · rw [eq_of_isStatementRound hround]
        exact h.statementRound (by omega)
      · exact h.overlooks body (by omega) hbody
  | .must body, _, hn, hp => .must (h.overlooks body (by omega) hp)
  | .rule _, _, _, hp => nomatch hp
  | .ref _ _, _, hn, hp => h.ref hn hp

theorem overlooksAll (h : OverlookedBelow depth) : (items : List Pattern) → {n : Nat} →
    n ≤ depth → allOverlookBreak overlooking items = true →
      ∀ item ∈ items, Overlooks pico8.grammar (Tailed Anything) (Tailed Anything) n item
  | [], _, _, _ => nofun
  | item :: items, _, hn, hp => by
      simp only [allOverlookBreak, Bool.and_eq_true] at hp
      exact List.forall_mem_cons.mpr ⟨h.overlooks item hn hp.1, h.overlooksAll items hn hp.2⟩

end

/-! ## Quoted strings -/

/-- The quotes of strings. -/
def quotes : List Char := ['"', '\'']

theorem mem_quotes : q ∈ quotes ↔ q = '"' ∨ q = '\'' := by simp [quotes]

theorem overlooksBreak_quote (hq : q ∈ quotes) :
    (Terminal.oneOf [q] false).overlooksBreak = true := by
  rcases mem_quotes.mp hq with rfl | rfl <;> decide

/-- A line break with a quote somewhere behind it ends before the keyword. -/
theorem lineBreak (hq : q ∈ quotes) :
    Overlooks pico8.grammar (Tailed (q ∈ ·)) (Tailed Anything) n Dialect.lineBreak := by
  obtain ⟨hreturn, hfeed⟩ : q ∉ "\r\n".toList ∧ q ∉ "\n\r".toList := by
    rcases mem_quotes.mp hq with rfl | rfl <;> decide
  apply Overlooks.choice
  simp only [List.forall_mem_cons]
  refine ⟨.of_endsWithin fun u hu => ?_, .of_endsWithin fun u hu => ?_,
    .of_endsWithin fun u hu => ?_, List.forall_mem_nil _⟩
  · exact endsWithin_literal_of_mem hu hreturn
  · exact endsWithin_literal_of_mem hu hfeed
  · exact endsWithin_oneOf (List.ne_nil_of_mem hu)

theorem escaped (h : OverlookedBelow depth) (hn : n ≤ depth) (hq : q ∈ quotes) :
    Overlooks pico8.grammar (Tailed (q ∈ ·)) (Tailed Anything) n Dialect.escaped.body := by
  have hbackslash : Overlooks pico8.grammar (Tailed (q ∈ ·)) (Tailed (q ∈ ·)) (n - 1)
      (.one "\\") := by
    refine .oneOf (fun u hu => List.ne_nil_of_mem hu) fun c hc v hmem => ?_
    obtain rfl : c = '\\' := by simpa using hc
    rcases List.mem_cons.mp hmem with rfl | hmem
    · exact absurd hq (by decide)
    · exact hmem
  have hchecked : ∀ p : Pattern, p.overlooksBreak overlooking = true →
      Overlooks pico8.grammar (Tailed (q ∈ ·)) (Tailed Anything) (n - 1 - 1 - 1) p := fun p hp =>
    (h.overlooks p (by omega) hp).mono (fun _ _ hst => hst.anything) fun _ _ => id
  refine .seq_cons hbackslash fun _ => .seq_cons (.must (.choice ?_)) fun _ =>
    .seq_nil fun _ _ => id
  simp only [List.forall_mem_cons]
  exact ⟨hchecked _ (by decide), hchecked _ (by decide), hchecked _ (by decide),
    hchecked _ (by decide), lineBreak hq, hchecked _ (by decide), List.forall_mem_nil _⟩

theorem character (h : OverlookedBelow depth) (hn : n ≤ depth) (hq : q ∈ quotes) :
    Overlooks pico8.grammar (Tailed (q ∈ ·)) (Tailed Anything) n (.call "character") := by
  have hcharacter : characterRule ∈ Dialect.rules pico8 := by simp [Dialect.rules, lexicalRules]
  have hescaped : Dialect.escaped ∈ Dialect.rules pico8 := by simp [Dialect.rules, lexicalRules]
  apply overlooks_call hcharacter
  apply Overlooks.choice
  simp only [List.forall_mem_cons]
  refine ⟨overlooks_call hescaped (h.escaped (by omega) hq), .of_endsWithin fun u hu => ?_,
    List.forall_mem_nil _⟩
  exact endsWithin_oneOf (List.ne_nil_of_mem hu)

/-- What a loop goes on to stands in the text. -/
theorem mem_of_repeatUntil {g : Grammar} {site : Site} {p : Pattern} {parts : List Tree}
    {rest : List Char}
    (h : Derives g (.repeatUntil site (.terminal (.oneOf [q] false)) p) s (.matched parts rest)) :
    q ∈ s := by
  generalize hp : Pattern.repeatUntil site (.terminal (.oneOf [q] false)) p = r at h
  generalize hx : Answer.matched parts rest = x at h
  induction h generalizing parts with
  | untilHere here _ _ =>
      cases hp
      subst hx
      obtain ⟨c, hc, rfl⟩ := takes_oneOf.mp ⟨_, here⟩
      exact List.mem_singleton.mp hc ▸ List.mem_cons_self
  | @untilMore _ _ _ _ _ _ x _ round _ _ _ ihothers =>
      cases hp
      cases x <;> cases hx
      rw [round.toMatch.text_eq]
      exact List.mem_append_right _ (ihothers rfl rfl)
  | untilStop _ _ stops _ _ =>
      subst hx
      exact absurd trivial stops
  | _ => cases hp

/-- A quote is looked for up to the keyword only, and found in the same place. -/
theorem toQuote (h : OverlookedBelow depth) (hn : n ≤ depth) (hq : q ∈ quotes)
    (hst : Tailed Anything s t) {parts : List Tree} {rest : List Char}
    (hmatch : DerivesIn pico8.grammar n
      (.repeatUntil none (.terminal (.oneOf [q] false)) (.call "character")) s
      (.matched parts rest)) :
    ∃ more other, DerivesIn pico8.grammar n
      (.repeatUntil none (.terminal (.oneOf [q] false)) (.call "character")) t
      (.matched more other) ∧ Tailed Anything rest other := by
  have hoff : q ∉ '\n' :: "end".toList := by rcases mem_quotes.mp hq with rfl | rfl <;> decide
  have hstop := overlooksBreak_quote hq
  generalize hm : n = m at hmatch
  generalize hp : Pattern.repeatUntil none (.terminal (.oneOf [q] false)) (.call "character") = p
    at hmatch
  generalize hx : Answer.matched parts rest = x at hmatch
  induction hmatch generalizing t parts with
  | untilHere here taken _ =>
      cases hm
      cases hp
      subst hx
      obtain ⟨_, hy, halike⟩ := Overlooks.terminal hstop hst here Answer.matched_ne_broken
      cases halike with
      | matched hleft => exact ⟨_, _, .untilHere hy nofun, hleft⟩
  | @untilMore _ _ _ _ s middle _ x here round others _ _ ihothers =>
      cases hm
      cases hp
      cases x <;> cases hx
      -- The quote is behind the character, so it is before the keyword.
      have hmem : q ∈ s := by
        rw [round.erase.toMatch.text_eq]
        exact List.mem_append_right _ (mem_of_repeatUntil others.erase)
      have hst' : Tailed (q ∈ ·) s t := by
        cases hst with
        | same s => exact .same s
        | ended hu _ => exact .ended hu ((List.mem_append.mp hmem).resolve_right hoff)
      obtain ⟨_, hhere, hfailed⟩ := Overlooks.terminal hstop hst here Answer.failed_ne_broken
      obtain ⟨_, hround, halike⟩ := h.character (by omega) hq hst' round
        Answer.matched_ne_broken
      cases hfailed with
      | failed =>
          cases halike with
          | matched hleft =>
              obtain ⟨_, _, hothers, hrest⟩ := ihothers hleft rfl rfl rfl
              exact ⟨_, _, .untilMore hhere hround hothers, hrest⟩
  | untilStop _ _ stops _ _ =>
      subst hx
      exact absurd trivial stops
  | _ => cases hp

/-- A string that is closed at all is closed before the keyword. -/
theorem quoted (h : OverlookedBelow depth) (hn : n ≤ depth) (hq : q ∈ quotes) {mark : String}
    (hmark : mark.toList = [q]) : Overlooks pico8.grammar (Tailed Anything) (Tailed Anything) n
      (.ifMust (.one mark) [.untilMatch (.one mark) [.call "character"]]) := by
  have hone : Pattern.one mark = .terminal (.oneOf [q] false) := by rw [Pattern.one, hmark]
  rw [hone]
  exact .seq_cons (.terminal (overlooksBreak_quote hq)) fun _ =>
    .seq_cons (.must_of_matched fun _ _ hst _ _ hmatch => h.toQuote (by omega) hq hst hmatch)
      fun _ => .seq_nil fun _ _ => id

/-- What is checked of the bodies of the rules. -/
theorem overlooksBreak_rules : ((Dialect.rules pico8).all fun rule =>
    !overlooking.contains rule.name || rule.body.overlooksBreak overlooking ||
      ["comment", "double_quote_string", "single_quote_string"].contains rule.name) = true := by
  decide +kernel

/-- The bodies of the rules overlook how the keyword is set off if, within the same depth, the
rules do. -/
theorem body (h : OverlookedBelow depth) (hn : n ≤ depth) {rule : Rule}
    (hrule : rule ∈ Dialect.rules pico8) (hname : overlooking.contains rule.name = true) :
    Overlooks pico8.grammar (Tailed Anything) (Tailed Anything) n rule.body := by
  have hcomment : comment ∈ Dialect.rules pico8 := by simp [Dialect.rules, lexicalRules]
  have hdouble : doubleQuoteString ∈ Dialect.rules pico8 := by simp [Dialect.rules, lexicalRules]
  have hsingle : singleQuoteString ∈ Dialect.rules pico8 := by simp [Dialect.rules, lexicalRules]
  have hchecked := List.all_eq_true.mp overlooksBreak_rules rule hrule
  simp only [hname, Bool.not_true, Bool.false_or, Bool.or_eq_true, List.contains_iff_mem,
    List.mem_cons, List.not_mem_nil, or_false] at hchecked
  rcases hchecked with hbody | hname | hname | hname
  · exact h.overlooks rule.body hn hbody
  · obtain rfl := eq_of_name_eq hrule hcomment hname
    exact overlooks_comment
  · obtain rfl := eq_of_name_eq hrule hdouble hname
    exact h.quoted hn (q := '"') (by decide) rfl
  · obtain rfl := eq_of_name_eq hrule hsingle hname
    exact h.quoted hn (q := '\'') (by decide) rfl

end OverlookedBelow

end Dialect

end CartLua
