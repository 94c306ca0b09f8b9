import CartLua.Proofs.Derivation.Outlines
import CartLua.Proofs.Fix.EndRules

/-!
# A short `if` before the keyword

The body of a short `if` is taken piece by piece up to the end of its line, or up to a keyword
`end`.  So it ends in the same place whether the keyword is on a line of its own or on the same
line, but for the blank before the keyword: on the same line it is one more piece of the body.
Where the body is empty, there is no short `if` in either case, since blanks at its beginning are no
piece of it.

What the last pieces come to is told from a few levels.  The condition before them is an expression
in brackets, which is derived within many levels only, so that there are enough of them.
-/

namespace CartLua

open Dialect Terminal Pattern

/-- An outline of characters up to the end of a text tells what fails on that text. -/
theorem failed_of_look_ofChars {dialect : Dialect} {n : Nat} {p : Pattern} {cs : List Char}
    (hlook : look dialect n p (Token.outline (Token.ofChars cs)) = .fails) :
    Derives dialect.grammar p cs .failed := by
  simpa using failed_of_look (Token.fit_ofChars cs) hlook

namespace Dialect

variable {P : List Char → Prop} {Q : List Char → List Char → Prop} {m n depth : Nat}
  {p : Pattern} {s t u v rest : List Char}

/-- One piece of the body of a short `if`, where the body has no end. -/
def shortIfRound : Pattern := inOrder [notAhead [shortIfEnd], shortIfToken]

/-- To overlook that one text has the break still to come is a matter of two texts. -/
theorem Overlooks.of_straying (h : Overlooks pico8.grammar (Tailed P) Q n p)
    (hstrayed : ∀ x, DerivesIn pico8.grammar n p ('\n' :: "end".toList) x → x ≠ .broken →
      ∃ y, DerivesIn pico8.grammar n p "end".toList y ∧ x.Alike Q y) :
    Overlooks pico8.grammar (Straying P) Q n p := by
  intro s t hst x hx hunbroken
  cases hst with
  | tailed hst => exact h hst hx hunbroken
  | strayed => exact hstrayed x hx hunbroken

/-! ## Where a short `if` ends -/

/-- Where a short `if` ends there is no further piece. -/
theorem failed_shortIfRound (h : Takes pico8.grammar shortIfEnd s rest) :
    Derives pico8.grammar shortIfRound s .failed := by
  obtain ⟨parts, h⟩ := h
  exact .seqStop (.lookahead h) id

theorem failed_shortIfRound_of_line {taken : List Tree}
    (h : (endOfLine true).answer s = .matched taken rest) :
    Derives pico8.grammar shortIfRound s .failed :=
  failed_shortIfRound (takes_choice_cons.mpr (.inl ⟨taken, .of_answer h⟩))

theorem failed_shortIfRound_keyword :
    Derives pico8.grammar shortIfRound "end".toList .failed := by
  have hline : Derives pico8.grammar endOfLineOrInput "end".toList .failed := .of_answer rfl
  have hdashes : Derives pico8.grammar (text "--") "end".toList .failed :=
    failed_of_look_ofChars (n := 1) (by decide)
  have hkey : Takes pico8.grammar (key "end") "end".toList [] :=
    takes_of_look ("end".toList.map .char) [.finish] (Token.fit_ofChars "end".toList)
      (n := 6) (by decide)
  exact failed_shortIfRound (takes_choice_cons.mpr (.inr ⟨hline, takes_choice_cons.mpr
    (.inr ⟨hdashes, takes_choice_cons.mpr (.inl hkey)⟩)⟩))

/-- Where neither a line nor a short `if` ends, it depends on the piece. -/
theorem ahead_of_shortIfEnd (hline : (endOfLine true).answer s = .failed)
    (hothers : look pico8 7 (choice [text "--", key "end"]) (Token.outline (Token.ofChars s)) =
      .fails) :
    Takes pico8.grammar (notAhead [shortIfEnd]) s s :=
  ⟨[], .lookahead (.choiceNext (.of_answer hline) (failed_of_look_ofChars hothers))⟩

/-- A carriage return alone ends no line, and is no piece either. -/
theorem failed_shortIfRound_return :
    Derives pico8.grammar shortIfRound ('\r' :: ' ' :: "end".toList) .failed := by
  obtain ⟨parts, hahead⟩ :
      Takes pico8.grammar (notAhead [shortIfEnd]) ('\r' :: ' ' :: "end".toList) _ :=
    ahead_of_shortIfEnd rfl (by decide)
  have hothers : Derives pico8.grammar (choice [call "literal_string", .identifier,
      call "inline_space"]) ('\r' :: ' ' :: "end".toList) .failed :=
    failed_of_look_ofChars (n := 12) (by decide)
  have hnone : Derives pico8.grammar (noneOf "\r\n") ('\r' :: ' ' :: "end".toList) .failed :=
    .of_answer rfl
  have htoken : Derives pico8.grammar shortIfToken ('\r' :: ' ' :: "end".toList) .failed := by
    simp only [failed_choice_cons_iff] at hothers
    obtain ⟨hstring, hword, hblank, -⟩ := hothers
    exact .choiceNext hstring (.choiceNext hword (.choiceNext hblank
      (.choiceNext hnone (.choiceNil _))))
  exact .seqCons hahead (.seqStop htoken id)

/-- A blank before the keyword is a piece. -/
theorem takes_shortIfRound_blank :
    Takes pico8.grammar shortIfRound (' ' :: "end".toList) "end".toList := by
  have hahead : Takes pico8.grammar (notAhead [shortIfEnd]) (' ' :: "end".toList) _ :=
    ahead_of_shortIfEnd rfl (by decide)
  have htoken : Takes pico8.grammar shortIfToken (' ' :: "end".toList) "end".toList := by
    have hothers : Derives pico8.grammar (choice [call "literal_string", .identifier])
        (' ' :: "end".toList) .failed := failed_of_look_ofChars (n := 12) (by decide)
    simp only [failed_choice_cons_iff] at hothers
    obtain ⟨hstring, hword, -⟩ := hothers
    have hblank : Takes pico8.grammar (call "inline_space") (' ' :: "end".toList) "end".toList :=
      takes_of_look [.char ' '] (Token.ofChars "end".toList)
        (Token.fit_ofChars (' ' :: "end".toList)) (n := 12) (by decide)
    exact takes_choice_cons.mpr (.inr ⟨hstring, takes_choice_cons.mpr (.inr ⟨hword,
      takes_choice_cons.mpr (.inl hblank)⟩)⟩)
  exact takes_seq_cons.mpr ⟨_, hahead, takes_seq_cons.mpr ⟨_, htoken, takes_seq_nil.mpr rfl⟩⟩

/-! ## Blanks within a line -/

theorem mem_inlineSpace : inlineSpace ∈ rules pico8 := by simp [rules, blockRules, extension]

theorem takes_inlineSpace : Takes pico8.grammar (call "inline_space") s rest ↔
    ∃ blanks, blanks ≠ [] ∧ (∀ c ∈ blanks, c ∈ " \t".toList) ∧ StartsOutside " \t".toList rest ∧
      s = blanks ++ rest :=
  (takes_call mem_inlineSpace).trans takes_plus_oneOf

theorem failed_inlineSpace (h : StartsOutside " \t".toList s) :
    Derives pico8.grammar (call "inline_space") s .failed :=
  failed_call mem_inlineSpace (.plusStop (failed_oneOf_iff.mpr h) id)

/-- All blanks that there are may be taken, even none. -/
theorem takes_blanks {blanks : List Char} (hblanks : ∀ c ∈ blanks, c ∈ " \t".toList)
    (hrest : StartsOutside " \t".toList rest) :
    Takes pico8.grammar (Pattern.optional [call "inline_space"]) (blanks ++ rest) rest := by
  by_cases hnil : blanks = []
  · subst hnil
    exact ⟨[], .opt (failed_inlineSpace hrest)⟩
  · obtain ⟨parts, h⟩ := takes_inlineSpace.mpr ⟨blanks, hnil, hblanks, hrest, rfl⟩
    exact ⟨parts, .opt h⟩

theorem exists_blanks (chars u : List Char) : ∃ blanks v, (∀ c ∈ blanks, c ∈ chars) ∧
    StartsOutside chars v ∧ u = blanks ++ v := by
  induction u with
  | nil => exact ⟨[], [], List.forall_mem_nil _, startsOutside_nil, rfl⟩
  | cons c u ih =>
      by_cases hc : c ∈ chars
      · obtain ⟨blanks, v, hblanks, hv, rfl⟩ := ih
        exact ⟨c :: blanks, v, List.forall_mem_cons.mpr ⟨hc, hblanks⟩, hv, rfl⟩
      · exact ⟨[], c :: u, List.forall_mem_nil _, startsOutside_cons.mpr hc, rfl⟩

/-- The blank before the keyword joins the blanks at the end of a text.  Then the break is still to
come on the other line. -/
theorem exists_blanks_beside {blanks : List Char} (hu : Uncommented v)
    (hblanks : ∀ c ∈ blanks, c ∈ " \t".toList) (hv : StartsOutside " \t".toList v) :
    StartsOutside " \t".toList (endedBy '\n' v) ∧ ∃ taken other, blanks <+: taken ∧
      (∀ c ∈ taken, c ∈ " \t".toList) ∧ StartsOutside " \t".toList other ∧
      blanks ++ endedBy ' ' v = taken ++ other ∧ Straying (· ≠ []) (endedBy '\n' v) other := by
  cases v with
  | nil =>
      have hall : ∀ c ∈ blanks ++ [' '], c ∈ " \t".toList :=
        List.forall_mem_append.mpr ⟨hblanks, List.forall_mem_singleton.mpr (by decide)⟩
      exact ⟨by decide, blanks ++ [' '], "end".toList, List.prefix_append _ _, hall, by decide,
        by simp [endedBy], .strayed⟩
  | cons c v =>
      rw [startsOutside_cons] at hv
      exact ⟨startsOutside_cons.mpr hv, blanks, endedBy ' ' (c :: v), List.prefix_refl _, hblanks,
        startsOutside_cons.mpr hv, rfl, .tailed (.ended hu (List.cons_ne_nil c v))⟩

/-- All blanks may be taken, up to the keyword. -/
theorem overlooks_blanks (hn : 5 ≤ n) : Overlooks pico8.grammar (Tailed Anything)
    (Straying (· ≠ [])) n (Pattern.optional [call "inline_space"]) := by
  have hstays : (Pattern.optional [call "inline_space"]).staysIn pico8 5 = true := by decide
  apply Overlooks.of_ended fun s => .tailed (.same s)
  intro u hu _ x hx _
  obtain ⟨blanks, v, hblanks, hv, rfl⟩ := exists_blanks " \t".toList u
  obtain ⟨hbelow, taken, other, -, htaken, hother, hsplit, hleft⟩ :=
    exists_blanks_beside hu.of_append hblanks hv
  obtain ⟨parts, hparts⟩ := takes_blanks hblanks hbelow
  obtain ⟨more, hmore⟩ := takes_blanks htaken hother
  rw [endedBy_append] at hx ⊢
  rw [← hsplit] at hmore
  cases hx.erase.deterministic hparts
  exact ⟨_, .of_staysIn hstays hmore hn, .matched hleft⟩

/-- Where there is a text before the keyword, blanks are taken on both lines or on none. -/
theorem overlooks_inlineSpace (hn : 4 ≤ n) : Overlooks pico8.grammar (Tailed (· ≠ []))
    (Straying (· ≠ [])) n (call "inline_space") := by
  have hstays : (call "inline_space").staysIn pico8 4 = true := by decide
  apply Overlooks.of_ended fun s => .tailed (.same s)
  intro u hu hne x hx _
  obtain ⟨blanks, v, hblanks, hv, rfl⟩ := exists_blanks " \t".toList u
  obtain ⟨hbelow, taken, other, hprefix, htaken, hother, hsplit, hleft⟩ :=
    exists_blanks_beside hu.of_append hblanks hv
  by_cases hnil : blanks = []
  · subst hnil
    obtain ⟨c, w, rfl⟩ := List.exists_cons_of_ne_nil hne
    rw [startsOutside_cons] at hv
    have hnone : ∀ d, Derives pico8.grammar (call "inline_space") (endedBy d (c :: w)) .failed :=
      fun d => failed_inlineSpace (startsOutside_cons.mpr hv)
    cases hx.erase.deterministic (hnone '\n')
    exact ⟨_, .of_staysIn hstays (hnone ' ') hn, .failed⟩
  · have hfilled : taken ≠ [] := by
      rintro rfl
      exact hnil (List.prefix_nil.mp hprefix)
    obtain ⟨parts, hparts⟩ := takes_inlineSpace.mpr ⟨blanks, hnil, hblanks, hbelow, rfl⟩
    obtain ⟨more, hmore⟩ := takes_inlineSpace.mpr ⟨taken, hfilled, htaken, hother, rfl⟩
    rw [endedBy_append] at hx ⊢
    rw [← hsplit] at hmore
    cases hx.erase.deterministic hparts
    exact ⟨_, .of_staysIn hstays hmore hn, .matched hleft⟩

/-! ## The body -/

/-- A line that ends before the keyword ends there on both lines, but for a carriage return that
may belong to the line feed before the keyword. -/
theorem endsWithin_endOfLine (hne : u ≠ []) (hreturn : u ≠ ['\r']) :
    (endOfLine true).EndsWithin u := by
  obtain ⟨c, v, rfl⟩ := List.exists_cons_of_ne_nil hne
  by_cases hfeed : c = '\n'
  · subst hfeed
    exact .inl ⟨['\n'], v, rfl, fun d _ => answer_endOfLine_feed (endedBy d v)⟩
  by_cases hboth : c = '\r' ∧ ∃ w, v = '\n' :: w
  · obtain ⟨rfl, w, rfl⟩ := hboth
    exact .inl ⟨['\r', '\n'], w, rfl, fun d _ => answer_endOfLine_return (endedBy d w)⟩
  · refine .inr fun d _ => ?_
    rcases answer_endOfLine_cases (endedBy d (c :: v)) with
      ⟨h, -⟩ | ⟨t, h, -⟩ | ⟨t, h, -⟩ | ⟨e, t, h, -, hanswer⟩
    · cases h
    · cases h
      exact absurd rfl hfeed
    · cases v with
      | nil =>
          cases h
          exact absurd rfl hreturn
      | cons e w =>
          cases h
          exact absurd ⟨rfl, w, rfl⟩ hboth
    · exact hanswer

/-- A piece behind which the line does not end with a carriage return alone. -/
theorem overlooks_piece (h : OverlookedBelow depth) (hn : n ≤ depth) (hdeep : 6 ≤ n) :
    Overlooks pico8.grammar (Tailed fun u => u ≠ [] ∧ u ≠ ['\r']) (Straying Anything) n
      shortIfRound := by
  have hcheck : ∀ p m, m ≤ depth → p.overlooksBreak overlooking = true →
      Overlooks pico8.grammar (Tailed fun u => u ≠ [] ∧ u ≠ ['\r']) (Tailed Anything) m p :=
    fun p m hm hp => (h.overlooks p hm hp).mono (fun _ _ hst => hst.anything) fun _ _ => id
  have hend : Overlooks pico8.grammar (Tailed fun u => u ≠ [] ∧ u ≠ ['\r']) (Tailed Anything)
      (n - 1 - 1) shortIfEnd := by
    apply Overlooks.choice
    simp only [List.forall_mem_cons]
    exact ⟨.of_endsWithin fun u hu => endsWithin_endOfLine hu.1 hu.2,
      hcheck _ _ (by omega) (by decide), hcheck _ _ (by omega) (by decide), List.forall_mem_nil _⟩
  have htoken : Overlooks pico8.grammar (Tailed fun u => u ≠ [] ∧ u ≠ ['\r']) (Straying Anything)
      (n - 1) shortIfToken := by
    apply Overlooks.choice
    simp only [List.forall_mem_cons]
    refine ⟨?_, ?_, ?_, ?_, List.forall_mem_nil _⟩
    · exact (hcheck _ _ (by omega) (by decide)).mono (fun _ _ => id) fun _ _ => .tailed
    · exact (hcheck _ _ (by omega) (by decide)).mono (fun _ _ => id) fun _ _ => .tailed
    · exact (overlooks_inlineSpace (by omega)).mono (fun _ _ hst => hst.mono fun _ hu => hu.1)
        fun _ _ hst => hst.anything
    · have hnone : Overlooks pico8.grammar (Tailed fun u => u ≠ [] ∧ u ≠ ['\r']) (Tailed Anything)
          (n - 1 - 1) (noneOf "\r\n") := .of_endsWithin fun u hu => endsWithin_oneOf hu.1
      exact hnone.mono (fun _ _ => id) fun _ _ => .tailed
  exact .seq_cons (.lookahead hend) fun _ => .seq_cons htoken fun _ => .seq_nil fun _ _ => id

theorem staysIn_shortIfRound : shortIfRound.staysIn pico8 22 = true := by decide +kernel

/-- A piece that is not just the blank before the keyword. -/
theorem overlooks_shortIfRound (h : OverlookedBelow depth) (hn : n ≤ depth) (hdeep : 22 ≤ n) :
    Overlooks pico8.grammar (Straying (· ≠ [])) (Straying Anything) n shortIfRound := by
  apply Overlooks.of_straying
  · apply Overlooks.of_ended fun s => .tailed (.same s)
    intro u hu hne x hx hunbroken
    by_cases hreturn : u = ['\r']
    · subst hreturn
      cases hx.erase.deterministic (failed_shortIfRound_of_line (answer_endOfLine_return _))
      exact ⟨_, .of_staysIn staysIn_shortIfRound failed_shortIfRound_return hdeep, .failed⟩
    · exact overlooks_piece h hn (by omega) (.ended hu ⟨hne, hreturn⟩) hx hunbroken
  · intro x hx _
    cases hx.erase.deterministic (failed_shortIfRound_of_line (answer_endOfLine_feed _))
    exact ⟨_, .of_staysIn staysIn_shortIfRound failed_shortIfRound_keyword hdeep, .failed⟩

/-- Either there is a text before the keyword, or it is only set off. -/
theorem straying_cases (h : Straying Anything s t) :
    Straying (· ≠ []) s t ∨ s = endedBy '\n' [] ∧ t = endedBy ' ' [] := by
  cases h with
  | strayed => exact .inl .strayed
  | tailed h =>
      cases h with
      | same s => exact .inl (.tailed (.same s))
      | @ended u hu _ =>
          cases u with
          | nil => exact .inr ⟨rfl, rfl⟩
          | cons c v => exact .inl (.tailed (.ended hu (List.cons_ne_nil c v)))

/-- All pieces are taken, with the blank before the keyword if they reach so far. -/
theorem overlooks_shortIfRounds (h : OverlookedBelow depth) (hn : n ≤ depth) (hdeep : 23 ≤ n)
    {site : Site} : Overlooks pico8.grammar (Straying Anything) (Straying Anything) n
      (.star site shortIfRound) := by
  intro s t hst x hx hunbroken
  generalize hm : n = m at hx
  generalize hp : Pattern.star site shortIfRound = p at hx
  have hfeed : Derives pico8.grammar shortIfRound (endedBy '\n' []) .failed :=
    failed_shortIfRound_of_line (answer_endOfLine_feed _)
  induction hx generalizing t with
  | @starMore _ _ _ s middle parts x round others _ ihothers =>
      cases hm
      cases hp
      rcases straying_cases hst with hst | ⟨rfl, -⟩
      · obtain ⟨_, hround, halike⟩ :=
          overlooks_shortIfRound h (by omega) (by omega) hst round
            Answer.matched_ne_broken
        cases halike with
        | matched hleft =>
            have hrest := Answer.ne_broken_of_after hunbroken
            obtain ⟨y, hy, hothers⟩ := ihothers hleft hrest rfl rfl
            exact ⟨_, .starMore hround hy, hothers.after _ _⟩
      · cases round.erase.deterministic hfeed
  | @starStop n _ _ s x round stops _ =>
      cases hm
      cases hp
      rcases straying_cases hst with hst' | ⟨rfl, rfl⟩
      · have hround := Answer.ne_broken_of_orNothing hunbroken
        obtain ⟨y, hy, halike⟩ := overlooks_shortIfRound h (by omega) (by omega) hst' round hround
        exact ⟨_, .starStop hy fun hmatch => stops (halike.isMatch hmatch), halike.orNothing hst⟩
      · -- The blank before the keyword is the last piece.
        have hlast : ∀ {s y}, Derives pico8.grammar shortIfRound s y →
            DerivesIn pico8.grammar n shortIfRound s y :=
          fun hy => .of_staysIn staysIn_shortIfRound hy (by omega)
        cases round.erase.deterministic hfeed
        obtain ⟨parts, hblank⟩ := takes_shortIfRound_blank
        exact ⟨_, .starMore (hlast hblank) (.starStop (hlast failed_shortIfRound_keyword) id),
          .matched .strayed⟩
  | _ => cases hp

/-- An expression in brackets is not derived within a few levels. -/
theorem lt_of_bracketExpr {parts : List Tree}
    (h : DerivesIn pico8.grammar n (call "bracket_expr") s (.matched parts rest)) : 30 < n := by
  have hmem : bracketExpr ∈ rules pico8 := by simp [rules, valueRules]
  obtain ⟨n, rfl⟩ : ∃ k, n = k + 3 := by
    have hdeep := h.lt_of_outgrows 2 (by decide)
    exact ⟨n - 3, by omega⟩
  obtain ⟨-, hrule⟩ := h.of_ref
  obtain ⟨_, _, hfound, hbody, -⟩ := hrule.of_rule
  cases (rule?_grammar hmem).symm.trans hfound
  obtain ⟨_, _, _, -, hothers, -⟩ := DerivesIn.of_seq_cons hbody
  obtain ⟨_, _, _, -, hothers, -⟩ := hothers.of_seq_cons
  obtain ⟨_, _, _, hexpression, -, -⟩ := hothers.of_seq_cons
  have hdeep := hexpression.lt_of_outgrows 30 (by decide)
  omega

/-- A short `if` ends before the keyword, on both lines. -/
theorem overlooks_shortIf (h : OverlookedBelow depth) (hn : n ≤ depth) :
    Overlooks pico8.grammar (Tailed Anything) (Straying Anything) n shortIfStatement.body := by
  refine .seq_cons (h.ref (by omega) (by decide)) fun _ => .seq_cons (h.ref (by omega) (by decide))
    fun _ => .seq_cons (h.ref (by omega) (by decide)) fun ⟨_, _, _, hbracket⟩ => ?_
  have hdeep := lt_of_bracketExpr hbracket
  refine .seq_cons (overlooks_blanks (by omega)) fun _ =>
    .seq_cons (.lookahead (Q := Straying Anything) ?_) fun _ =>
      .seq_cons (.plus (overlooks_shortIfRound h (by omega) (by omega))
        (overlooks_shortIfRounds h (by omega) (by omega))) fun _ => .seq_nil fun _ _ => id
  apply Overlooks.of_straying
  · exact (h.ref (by omega) (by decide)).mono (fun _ _ hst => hst.anything) fun _ _ => .tailed
  · intro x hx _
    have hfeed : Derives pico8.grammar (key "then") ('\n' :: "end".toList) .failed :=
      failed_of_look_ofChars (n := 6) (by decide)
    have hkeyword : Derives pico8.grammar (key "then") "end".toList .failed :=
      failed_of_look_ofChars (n := 6) (by decide)
    cases hx.erase.deterministic hfeed
    have hthen : (key "then").settlesIn pico8 5 = true := settlesIn_key (by decide)
    exact ⟨_, .of_settlesIn hthen hkeyword (by omega), .failed⟩

end Dialect

end CartLua
