import CartLua.Proofs.Derivation.Shallow
import CartLua.Proofs.Dialect.LuaPassage
import CartLua.Proofs.Dialect.Openings

/-!
# Rules that are carried for reasons of their own

Where the dialects differ, and where an alternative is tried before the one that matches,
it has to be shown that what only one dialect has does not get in the way: it begins with
characters or keywords that do not stand there.
-/

namespace CartLua

open Dialect

namespace Passage.Holds

variable {a b : Dialect} {depth n : Nat} {known : Bool} {p : Pattern}

/-- The matches of what the passage carries. -/
theorem carriesPart (h : passage.Holds a b depth) (hn : n ≤ depth)
    (hp : p.carries passage known = true) : Carries a b ending known n p :=
  h.carries (suits a b) p known n hn hp

/-- The failures of what the passage refuses. -/
theorem refusesPart (h : passage.Holds a b depth) (hn : n ≤ depth)
    (hp : p.refuses passage = true) : Refuses a b ending false n p :=
  h.refuses (suits a b) p n hn hp

end Passage.Holds

namespace Dialect

open Pattern CartLua.Tree

variable {a b dialect : Dialect} {depth n m k : Nat} {known : Bool} {p : Pattern}
  {items : List Pattern} {chars : List Char} {s rest : List Char} {parts : List Tree}

/-! ## What does not match -/

/-- Where the first item of a sequence cannot match, it is the one that fails. -/
theorem failed_first (h : DerivesIn dialect.grammar (n + 1) (.seq (p :: items)) s .failed)
    (hnone : ∀ parts rest, ¬Derives dialect.grammar p s (.matched parts rest)) :
    DerivesIn dialect.grammar n p s .failed := by
  rcases h.of_failed_seq with hfailed | ⟨_, _, hmatch, -⟩
  · exact hfailed
  · exact absurd hmatch.erase (hnone _ _)

/-- What begins with a character that does not stand there fails. -/
theorem failed_of_head (hsettles : p.settlesIn dialect m = true)
    (hopens : p.opensWith dialect (isCharacter chars) k = true) (hs : ∀ c ∈ s.head?, c ∉ chars)
    (hn : m ≤ n) : DerivesIn dialect.grammar n p s .failed := by
  apply DerivesIn.failed_of_settlesIn hsettles hn
  intro parts rest hmatch
  obtain ⟨c, hc, t, rfl⟩ := head_of_opensWith hopens hmatch
  exact hs c rfl hc

/-- A text does not begin with what it may not go on with. -/
theorem not_mem_of_next {cue : Cue} (h : cue.Next dialect.grammar s)
    (hchars : chars.all (fun c => !cue.allowed c && !spaces.toList.contains c && c != '-') = true) :
    ∀ c ∈ s.head?, c ∉ chars := by
  intro c hc hmem
  obtain ⟨t, rfl⟩ := List.head?_eq_some_iff.mp hc
  have hchar := List.all_eq_true.mp hchars c hmem
  simp only [Bool.and_eq_true, Bool.not_eq_true', bne_iff_ne] at hchar
  rw [allowed_of_next h (by simpa using hchar.1.2) hchar.2] at hchar
  cases hchar.1.1

/-- What cannot be derived within a few levels is carried if it is from there on. -/
theorem carries_of_outgrows {cue : Cue} (m : Nat) (hp : p.outgrows a m = true)
    (h : m < n → Carries a b cue known n p) : Carries a b cue known n p :=
  fun s parts rest hmatch => h (hmatch.lt_of_outgrows m hp) s parts rest hmatch

/-- What only the extension has is not plain. -/
theorem not_plain_of_extension {rule : Rule} (hrule : rule ∈ pico8.rules)
    (hkind : OccurrenceKind.ofName? rule.name ≠ none)
    (h : DerivesIn dialect.grammar n (.choice (extension [call rule.name] dialect)) s
      (.matched parts rest)) : ¬Plain parts := by
  cases dialect with
  | canonical => cases h
  | pico8 =>
      intro hplain
      obtain ⟨item, hitem, hmatch⟩ := h.erase.of_choice
      obtain rfl := List.mem_singleton.mp hitem
      obtain ⟨inner, rfl, -⟩ := derives_of_call hrule hmatch
      exact hkind (Plain.node_iff.mp hplain).1

/-! ## Comparisons -/

theorem mem_operatorsTwo (dialect : Dialect) : operatorsTwo dialect ∈ dialect.rules := by
  simp [rules, tierRules]

/-- The comparisons that are tried before those of the extension. -/
def comparisons : List Pattern :=
  [text "==", text "<=", text ">=", operatorOne "<" "<", operatorOne ">" ">"]

theorem failed_notEqual (hs : ∀ c ∈ s.head?, c ∉ ['!']) (hn : 3 ≤ n) :
    DerivesIn dialect.grammar (n + 1) (.choice (extension [call "operator_notequal"] dialect)) s
      .failed := by
  cases dialect with
  | canonical => exact .choiceNil s
  | pico8 =>
      obtain ⟨n, rfl⟩ : ∃ m, n = m + 3 := ⟨n - 3, by omega⟩
      have hmem : operatorNotEqual ∈ pico8.rules := by simp [rules, tierRules, extension]
      have hbody : DerivesIn pico8.grammar (n + 1) operatorNotEqual.body s .failed :=
        failed_of_head (m := 1) (k := 0) rfl rfl hs (by omega)
      exact .choiceNext (.failed_call hmem hbody) (.choiceNil s)

/-- Where the text goes on as after an expression, no comparison of either dialect stands. -/
theorem refuses_operatorsTwo (hn : 3 ≤ n) :
    Refuses a b ending true (n + 2) (.rule "operators_two") := by
  intro s hknown h
  obtain ⟨rule, found, hbody⟩ := h.of_failed_rule
  cases (rule?_grammar (mem_operatorsTwo a)).symm.trans found
  obtain ⟨hfirst, hlast⟩ := DerivesIn.of_failed_choice_append hbody
  obtain ⟨hcommon, -⟩ := hfirst.of_failed_choice_append
  have hs : ∀ c ∈ s.head?, c ∉ ['!'] := not_mem_of_next (hknown rfl) (by decide)
  have hcommon' := (suits a b).shares (p := .choice comparisons) rfl _ s _ hcommon
  have hlast' := (suits a b).shares (p := .choice [text "~="]) rfl _ s _ hlast
  exact .rule (rule?_grammar (mem_operatorsTwo b))
    ((hcommon'.choice_right (failed_notEqual hs hn)).choice_right hlast')

theorem carries_operatorsTwo (hn : 3 ≤ n) :
    Carries a b ending false (n + 2) (.rule "operators_two") := by
  apply Carries.rule (mem_operatorsTwo a) (mem_operatorsTwo b) rfl
  intro s parts rest h hplain _
  rcases DerivesIn.of_choice_append h with hfirst | ⟨hfailed, hlast⟩
  · rcases hfirst.of_choice_append with hcommon | ⟨-, hextra⟩
    · have hcommon' := (suits a b).shares (p := .choice comparisons) rfl _ s _ hcommon
      exact ⟨parts, (hcommon'.choice_left _).choice_left _, hplain⟩
    · have hmem : operatorNotEqual ∈ pico8.rules := by simp [rules, tierRules, extension]
      exact absurd hplain (not_plain_of_extension hmem (by decide) hextra)
  · obtain ⟨hcommon, -⟩ := hfailed.of_failed_choice_append
    have hs : ∀ c ∈ s.head?, c ∉ ['!'] := by
      obtain ⟨item, hitem, hmatch⟩ := hlast.erase.of_choice
      obtain rfl := List.mem_singleton.mp hitem
      obtain ⟨-, rfl⟩ := Match.of_literal hmatch.toMatch
      intro c hc
      cases hc
      decide
    have hcommon' := (suits a b).shares (p := .choice comparisons) rfl _ s _ hcommon
    have hlast' := (suits a b).shares (p := .choice [text "~="]) rfl _ s _ hlast
    exact ⟨parts, (hcommon'.choice_right (failed_notEqual hs hn)).choice_right hlast', hplain⟩

/-- A comparison ends where the text goes on as after an expression. -/
theorem carries_exprTwo (hholds : passage.Holds a b depth) (hn : n ≤ depth) :
    Carries a b ending true n exprTwo.body := by
  have hdepth : (call "expr_three").outgrows a 8 = true := outgrows_of_mem (by decide)
  apply carries_of_outgrows 9 hdepth
  intro hdeep
  obtain ⟨n, rfl⟩ : ∃ m, n = m + 6 := ⟨n - 6, by omega⟩
  let operator : Pattern := call "operators_two"
  let operands : List Pattern := [gap, call "expr_three", gap]
  have hgap : Carries a b ending false (n + 5) gap := hholds.carriesPart (by omega) (by decide)
  have hoperand : Carries a b ending false (n + 5) (call "expr_three") :=
    hholds.carriesPart (by omega) (by decide)
  have hoperands : Carries a b ending false (n + 4) (.seq (operands.map must)) :=
    hholds.carriesPart (by omega) (by decide)
  have hround : Carries a b ending false (n + 4) (ifMust operator operands) :=
    .seq_cons (fits_ending a) (carries_operatorsTwo (by omega)).ref (by simp) hoperands
  have hrefuses : Refuses a b ending true (n + 4) (ifMust operator operands) :=
    (refuses_operatorsTwo (by omega)).ref.seq_cons (.inl fun _ => Derives.not_failed_seq_must)
  have hloop : Carries a b ending true (n + 5) (many [ifMust operator operands]) :=
    .star (fits_ending a) hrefuses hround (by simp)
  exact .seq_cons (fits_ending a) hoperand (by simp)
    (.seq_cons (fits_ending a) hgap (by simp)
      (.seq_cons (fits_ending a) hloop (fun _ => rfl) .seq_nil))

/-! ## Chains -/

/-- A variable tail that does not stand there fails with what may follow it. -/
theorem refuses_variableLink (hholds : passage.Holds a b depth) (hn : n ≤ depth)
    (hs : ∀ c ∈ s.head?, c ∉ ['[', '.'])
    (h : DerivesIn a.grammar (n + 1) variableLink s .failed) :
    DerivesIn b.grammar (n + 1) variableLink s .failed := by
  have htail : DerivesIn a.grammar n (call "variable_tail") s .failed := by
    apply failed_first h
    intro parts rest hmatch
    obtain ⟨c, hc, t, rfl⟩ := head_of_mem_heads (.head _) hmatch
    exact hs c rfl hc
  have hrefuses : Refuses a b ending false n (call "variable_tail") :=
    hholds.refusesPart hn (by decide)
  exact .seqStop (hrefuses s (by simp) htail) id

/-- What follows a variable is carried but for the compound assignments. -/
theorem carries_links (hholds : passage.Holds a b depth) (hn : n + 1 ≤ depth) :
    Carries a b ending true (n + 1)
      (.choice [callLink, variableLink, call "assignments"]) := by
  have hcall : Carries a b ending true n callLink := hholds.carriesPart (by omega) (by decide)
  have hnoCall : Refuses a b ending false n callLink := hholds.refusesPart (by omega) (by decide)
  apply Carries.choice_cons hcall (.inr hnoCall)
  intro s parts rest h hplain hknown
  rcases h.of_choice_cons with hmatch | ⟨hfailed, hothers⟩
  · have hvariable : Carries a b ending true n variableLink :=
      hholds.carriesPart (by omega) (by decide)
    obtain ⟨more, hmore, hplainMore⟩ := hvariable s parts rest hmatch hplain hknown
    exact ⟨more, .choiceHere hmore (by simp), hplainMore⟩
  · have hassignments : Carries a b ending true (n + 1) (.choice [call "assignments"]) :=
      hholds.carriesPart (by omega) (by decide)
    obtain ⟨more, hmore, hplainMore⟩ := hassignments s parts rest hothers hplain hknown
    have hnext : ending.Next a.grammar s := next_at_once (fits_ending a) (by decide) hothers.erase
    have hs : ∀ c ∈ s.head?, c ∉ ['[', '.'] := not_mem_of_next hnext (by decide)
    cases n with
    | zero => cases hfailed
    | succ n =>
        have hvariable := refuses_variableLink hholds (by omega) hs hfailed
        exact ⟨more, .choiceNext hvariable hmore, hplainMore⟩

/-- What must follow a variable is carried. -/
theorem carries_variableContinuation (hholds : passage.Holds a b depth) (hn : n ≤ depth) :
    CarriesTo a b ending true n (variableContinuation a).body (variableContinuation b).body := by
  intro s parts rest h hplain hknown
  obtain ⟨n, rfl⟩ : ∃ m, n = m + 2 := by
    have hdeep := h.lt_of_outgrows 1 rfl
    exact ⟨n - 2, by omega⟩
  obtain ⟨first, middle, others, hgap, hothers, rfl⟩ := DerivesIn.of_seq_cons h
  obtain ⟨links, _, _, hlinks, hnil, rfl⟩ := hothers.of_seq_cons
  cases hnil
  obtain ⟨hplainGap, hplainOthers⟩ := Plain.append_iff.mp hplain
  obtain ⟨hplainLinks, -⟩ := Plain.append_iff.mp hplainOthers
  rcases hlinks.of_choice_append with hcommon | ⟨-, hextra⟩
  · obtain ⟨more, hmore, hplainMore⟩ :=
      carries_links hholds (by omega) middle links rest hcommon hplainLinks hknown
    have hgap' := (suits a b).shares (p := gap) (by decide) _ _ _ hgap
    refine ⟨first ++ (more ++ []), .seqCons hgap' (.seqCons (hmore.choice_left _) (.seqNil rest)),
      ?_⟩
    simp only [List.append_nil, Plain.append_iff, hplainGap, hplainMore, and_self]
  · have hmem : reassignment ∈ pico8.rules := by simp [rules, chainStatementRules, extension]
    exact absurd hplainLinks (not_plain_of_extension hmem (by decide) hextra)

/-- After padding a text does not begin with what it may not go on with. -/
theorem not_mem_of_gap {cue : Cue} (h : cue.Next dialect.grammar s)
    (hgap : Derives dialect.grammar gap s (.matched parts rest))
    (hchars : chars.all (fun c => !cue.allowed c) = true) : ∀ c ∈ rest.head?, c ∉ chars := by
  intro c hc hmem
  obtain ⟨_, -, hpadding⟩ := derives_of_call mem_seps hgap
  have hchar := List.all_eq_true.mp hchars c hmem
  rw [h _ _ hpadding c hc] at hchar
  cases hchar

/-- Where the text goes on as after a statement, no tail stands. -/
theorem refuses_tails (hholds : passage.Holds a b depth) (hn : n ≤ depth) :
    Refuses a b ending true n (inOrder [gap, choice [callLink, variableLink]]) := by
  intro s hknown h
  obtain ⟨n, rfl⟩ : ∃ m, n = m + 3 := by
    have hdeep := h.lt_of_outgrows 2 rfl
    exact ⟨n - 3, by omega⟩
  rcases h.of_failed_seq with hgap | ⟨first, middle, hgap, hothers⟩
  · exact absurd hgap.erase ((suits a b).not_failed (p := gap) rfl)
  · have htails :
        DerivesIn a.grammar (n + 2) (.choice [callLink, variableLink]) middle .failed := by
      rcases hothers.of_failed_seq with htails | ⟨_, _, -, hnil⟩
      · exact htails
      · cases hnil
    obtain ⟨hcall, hvariables⟩ := htails.of_failed_choice
    obtain ⟨hvariable, -⟩ := hvariables.of_failed_choice
    have hs : ∀ c ∈ middle.head?, c ∉ ['[', '.'] :=
      not_mem_of_gap (hknown rfl) hgap.erase (by decide)
    have hgap' := (suits a b).shares (p := gap) (by decide) _ _ _ hgap
    have hcall' : Refuses a b ending false (n + 1) callLink :=
      hholds.refusesPart (by omega) (by decide)
    have hvariable' := refuses_variableLink hholds (by omega) hs hvariable
    exact .seqCons hgap' (.seqStop (.choiceNext (hcall' _ (by simp) hcall)
      (.choiceNext hvariable' (.choiceNil _))) id)

/-- A call ends where the text goes on as after a statement. -/
theorem carries_callContinuation (hholds : passage.Holds a b depth) (hn : n ≤ depth) :
    Carries a b ending true n callContinuation.body := by
  cases n with
  | zero => exact .zero
  | succ n =>
      exact .opt (refuses_tails hholds (by omega)) (hholds.carriesPart (by omega) (by decide))

/-- A name begins with a character for it. -/
theorem head_of_name (h : Derives dialect.grammar (call "name") s (.matched parts rest)) :
    ∃ c t, s = c :: t ∧ Terminal.isIdentifierFirst c = true := by
  obtain ⟨_, -, hbody⟩ := derives_of_call (by simp [rules, lexicalRules] : nameRule ∈ _) h
  obtain ⟨_, _, _, hahead, hothers, -⟩ := hbody.of_seq_cons
  obtain ⟨-, rfl⟩ := Match.lookahead_iff.mp hahead.toMatch
  obtain ⟨_, _, _, hword, -, -⟩ := hothers.of_seq_cons
  exact hword.toMatch.of_identifier

/-- A name does not begin with a character that is none of a name. -/
theorem not_name_of_head (hs : ∀ c ∈ s.head?, Terminal.isIdentifierFirst c = false) :
    ¬Derives dialect.grammar (call "name") s (.matched parts rest) := by
  intro h
  obtain ⟨c, t, rfl, hfirst⟩ := head_of_name h
  rw [hs c rfl] at hfirst
  cases hfirst

/-- A statement that begins with a chain is carried. -/
theorem carries_chainStatement (hholds : passage.Holds a b depth) (hn : n ≤ depth) :
    Carries a b ending true n chainStatement.body := by
  intro s parts rest h hplain hknown
  obtain ⟨n, rfl⟩ : ∃ m, n = m + 2 := by
    have hdeep := h.lt_of_outgrows 1 rfl
    exact ⟨n - 2, by omega⟩
  rcases DerivesIn.of_choice_cons h with hmatch | ⟨hfailed, hothers⟩
  · have hnamed : Carries a b ending true (n + 1)
        (inOrder [call "name", call "variable_continuation"]) :=
      hholds.carriesPart (by omega) (by decide)
    obtain ⟨more, hmore, hplainMore⟩ := hnamed s parts rest hmatch hplain hknown
    exact ⟨more, .choiceHere hmore (by simp), hplainMore⟩
  · have hbracket : Carries a b ending true (n + 2)
        (choice [inOrder [call "bracket_expr", call "bracket_continuation"]]) :=
      hholds.carriesPart (by omega) (by decide)
    obtain ⟨more, hmore, hplainMore⟩ := hbracket s parts rest hothers hplain hknown
    -- Where a bracket stands no name does, so the first alternative has failed at once.
    obtain ⟨item, hitem, hmatch⟩ := hothers.erase.of_choice
    obtain rfl := List.mem_singleton.mp hitem
    obtain ⟨_, _, _, hopen, -, -⟩ := hmatch.of_seq_cons
    obtain ⟨c, hc, t, rfl⟩ : ∃ c ∈ ['('], ∃ t, s = c :: t :=
      head_of_mem_heads (by simp [heads]) hopen
    obtain rfl := List.mem_singleton.mp hc
    have hname : DerivesIn a.grammar n (call "name") ('(' :: t) .failed :=
      failed_first hfailed fun _ _ => not_name_of_head (by intro c hc; cases hc; decide)
    have hname' := (suits a b).shares (p := call "name") (by decide) _ _ _ hname
    exact ⟨more, .choiceNext (.seqStop hname' id) hmore, hplainMore⟩

/-! ## Assignments -/

/-- A round of the tails of a variable, of which the last one makes it a variable. -/
def variableRound : Pattern :=
  inOrder [many [gap, call "function_call_tail"], gap, call "variable_tail"]

/-- Where a variable of an assignment ends, neither a call nor a tail of it stands. -/
theorem refuses_variableRound (hholds : passage.Holds a b depth) (hn : n ≤ depth) :
    Refuses a b afterVariable true n variableRound := by
  intro s hknown h
  obtain ⟨n, rfl⟩ : ∃ m, n = m + 3 := by
    have hdeep := h.lt_of_outgrows 2 rfl
    exact ⟨n - 3, by omega⟩
  rcases h.of_failed_seq with hcalls | ⟨calls, middle, hcalls, hothers⟩
  · exact absurd hcalls.erase Derives.not_failed_star
  · generalize hx : Answer.matched calls middle = x at hcalls
    cases hcalls with
    | starMore round _ =>
        obtain ⟨_, _, _, hgap, hcall, -⟩ := round.of_seq_cons
        obtain ⟨_, _, _, htail, -, -⟩ := hcall.of_seq_cons
        obtain ⟨c, hc, t, rfl⟩ := head_of_mem_heads (.tail _ (.head _)) htail.erase
        exact absurd hc (not_mem_of_gap (hknown rfl) hgap.erase (by decide) c rfl)
    | @starStop _ _ _ _ x round stops =>
        cases x <;> cases hx
        · exact absurd trivial stops
        · have hround :
              Refuses a b ending false (n + 1) (inOrder [gap, call "function_call_tail"]) :=
            hholds.refusesPart (by omega) (by decide)
          have htails : Refuses a b ending false (n + 3) (inOrder [gap, call "variable_tail"]) :=
            hholds.refusesPart (by omega) (by decide)
          exact .seqCons (.starStop (hround s (by simp) round) id) (htails s (by simp) hothers)

/-- A variable of an assignment is carried. -/
theorem carries_variable (hholds : passage.Holds a b depth) (hn : n ≤ depth) :
    Carries a b afterVariable true n variableRule.body := by
  apply carries_of_outgrows 2 rfl
  intro hdeep
  obtain ⟨n, rfl⟩ : ∃ m, n = m + 3 := ⟨n - 3, by omega⟩
  have hhead : Carries a b afterVariable false (n + 2) (call "variable_head") :=
    (hholds.carriesPart (by omega) (by decide)).of_false
  have hround : Carries a b afterVariable false (n + 1) variableRound :=
    (hholds.carriesPart (by omega) (by decide)).of_false
  have hloop : Carries a b afterVariable true (n + 2) (many [variableRound]) :=
    .star (fits_afterVariable a) (refuses_variableRound hholds (by omega)) hround (by simp)
  exact .seq_cons (fits_afterVariable a) hhead (by simp)
    (.seq_cons (fits_afterVariable a) hloop (fun _ => rfl) .seq_nil)

/-- The rest of an assignment is carried. -/
theorem carries_assignments (hholds : passage.Holds a b depth) (hn : n ≤ depth) :
    Carries a b ending true n assignments.body := by
  apply carries_of_outgrows 5 rfl
  intro hdeep
  obtain ⟨n, rfl⟩ : ∃ m, n = m + 6 := ⟨n - 6, by omega⟩
  let comma : Pattern := pad (one ",") (call "sep")
  have hrule : variableRule ∈ a.rules ∧ variableRule ∈ b.rules := by simp [rules, chainRules]
  have hvariable : Carries a b afterVariable true (n + 3) (must (call "variable")) :=
    (Carries.rule hrule.1 hrule.2 rfl (carries_variable hholds (by omega))).ref.must
  have hcomma : Carries a b afterVariable false (n + 3) comma :=
    (hholds.carriesPart (by omega) (by decide)).of_false
  have hround : Carries a b afterVariable true (n + 4) (ifMust comma [call "variable"]) :=
    .seq_cons (fits_afterVariable a) hcomma (by simp)
      (.seq_cons (fits_afterVariable a) hvariable (fun _ => rfl) .seq_nil)
  have hrefuses : Refuses a b afterVariable true (n + 4) (ifMust comma [call "variable"]) :=
    (hholds.refusesPart (by omega) (by decide)).of_false
  have hloop : Carries a b afterVariable true (n + 5) (many [ifMust comma [call "variable"]]) :=
    .star (fits_afterVariable a) hrefuses hround fun _ => ⟨rfl, by decide⟩
  have hvalues : Carries a b ending true (n + 6) (.seq [gap, call "assignments_one"]) :=
    hholds.carriesPart (by omega) (by decide)
  exact .seq_cons_of_leads (fits_afterVariable a) hloop (by decide) hvalues

end Dialect

end CartLua
