import CartLua.Proofs.Derivation.Outlines
import CartLua.Proofs.Dialect.CarriedStatements
import CartLua.Proofs.Tally.DistinctPlaces

/-!
# Nothing is walked twice

Functions, tables and brackets contain expressions, so walking one of them twice walks all that is
inside it twice, and what is inside that four times.  In each dialect an alternative that has walked
one of them before it fails is not followed by one that matches, except for a short `if`.

For most rules a passage shows it.  The others are those where an alternative walks far before it
fails: in the continuations of chains, in assignments and loops, and where one kind of statement is
tried before another one.  There what stands in the text, or what follows it, tells that only the
alternative that matches can have got beyond a first token.
-/

namespace CartLua

namespace Dialect

open Pattern

/-- The constructs that contain others of their kind. -/
def nestedConstructs : List String := ["function_literal", "table_constructor", "bracket_expr"]

/-- What is said of the rules of a dialect: those of `shared` are none of the nested constructs and
use none of them, those of `refusing` fail before they have matched one, and those of `sealed`
and `passing` match none twice. -/
def thrift : Passage where
  cue := ending
  unfailing := passage.unfailing
  shared := passage.shared ++ ["operators_two", "operator_notequal", "operators_reassign"]
  refusing := passage.refusing
  sealed :=
    passage.sealed ++
      ["expr_two", "expr_one", "expression", "expr_list_must", "table_field_one",
        "table_field_two", "table_field", "table_field_list", "statement_return",
        "assignments_one", "reassignment", "local_variables", "local_statement"]
  passing :=
    ["repeat_statement", "variable_continuation", "call_continuation", "bracket_continuation",
      "assignments", "chain_statement", "statement"]

/-- The rules that match tidily for a reason of their own. -/
def walksFar : List String :=
  ["for_statement", "variable_continuation", "call_continuation", "assignments",
    "chain_statement", "statement"]

/-- Whether a rule is what is said of it because its parts are. -/
def isThrifty (rule : Rule) : Bool :=
  (!thrift.unfailing.contains rule.name || rule.body.neverFails thrift.unfailing) &&
    (!thrift.shared.contains rule.name || rule.body.usesOnly thrift.shared) &&
    (!thrift.refusing.contains rule.name || rule.body.refuses thrift) &&
    (walksFar.contains rule.name ||
      (!thrift.sealed.contains rule.name || rule.body.carries thrift false) &&
        (!thrift.passing.contains rule.name || rule.body.carries thrift true))

theorem isThrifty_of_mem {dialect : Dialect} {rule : Rule} (hrule : rule ∈ dialect.rules) :
    isThrifty rule = true := by
  have hall : dialect.rules.all isThrifty = true := by cases dialect <;> decide
  exact List.all_eq_true.mp hall rule hrule

/-! ## Compound assignments -/

/-- What stands between two variables of an assignment. -/
def comma : Pattern := pad (one ",") (call "sep")

/-- How the operators of compound assignments are seen: no comma stands there. -/
theorem look_operators (dialect : Dialect) :
    reassignmentOperators.all (fun op =>
      look dialect 100 comma (op.toList.map .char) = .fails) = true := by
  cases dialect <;> decide

/-- Where an operator of a compound assignment stands, no comma does. -/
theorem failed_comma {dialect : Dialect} {op : String} (hop : op ∈ reassignmentOperators)
    (t : List Char) : Derives dialect.grammar comma (op.toList ++ t) .failed := by
  have hlook := List.all_eq_true.mp (look_operators dialect) op hop
  rw [← Token.outline_map_char] at hlook
  have hfailed := failed_of_look (Token.fit_map_char op.toList t) (of_decide_eq_true hlook)
  rwa [Token.text_map_char] at hfailed

/-- No operator of a compound assignment begins a variable tail. -/
theorem startsOutside_of_operator {op : String} (hop : op ∈ reassignmentOperators)
    (t : List Char) : StartsOutside ['[', '.'] (op.toList ++ t) := by
  have hall : reassignmentOperators.all (fun op =>
      op.toList.head?.any fun c => !(['[', '.'].contains c)) = true := by decide
  have hhead := List.all_eq_true.mp hall op hop
  cases hchars : op.toList with
  | nil =>
      rw [hchars] at hhead
      cases hhead
  | cons d ds =>
      rw [hchars] at hhead
      exact startsOutside_cons.mpr (by simpa using hhead)

theorem carries_reassignment (dialect : Dialect) :
    (choice (extension [call "reassignment"] dialect)).carries thrift true = true := by
  cases dialect <;> decide

/-- A compound assignment begins with its operator. -/
theorem operator_of_reassignment {dialect : Dialect} {s rest : List Char} {parts : List Tree}
    (h : Derives dialect.grammar (.choice (extension [call "reassignment"] dialect)) s
      (.matched parts rest)) : ∃ op ∈ reassignmentOperators, ∃ t, s = op.toList ++ t := by
  cases dialect with
  | canonical => nomatch h
  | pico8 =>
      have hreassignment : reassignment ∈ pico8.rules := by
        simp [rules, chainStatementRules, extension]
      have hoperators : operatorsReassign ∈ pico8.rules := by
        simp [rules, chainStatementRules, extension]
      obtain ⟨item, hitem, hmatch⟩ := h.of_choice
      obtain rfl := List.mem_singleton.mp hitem
      obtain ⟨_, -, hbody⟩ := derives_of_call hreassignment hmatch
      obtain ⟨_, _, _, hfirst, -, -⟩ := hbody.of_seq_cons
      obtain ⟨_, -, hoperator⟩ := derives_of_call hoperators hfirst
      obtain ⟨item, hitem, hliteral⟩ := hoperator.of_choice
      obtain ⟨op, hop, rfl⟩ := List.mem_map.mp hitem
      obtain ⟨-, rfl⟩ := Match.of_literal hliteral.toMatch
      exact ⟨op, hop, _, rfl⟩

end Dialect

open Dialect Pattern

namespace Survey

variable {v : Survey} {known : Bool} {depth n : Nat} {p : Pattern} {Q : List Char → Prop}

/-- What is said of rules at any depth is so. -/
theorem suits_thrift (hv : v.watched = nestedConstructs) : v.Suits thrift where
  suits :=
    { cue := fits_ending v.dialect
      unfailing := by
        intro rule hrule hname
        have hthrifty := isThrifty_of_mem hrule
        simp only [isThrifty, hname, Bool.not_true, Bool.false_or, Bool.and_eq_true] at hthrifty
        exact hthrifty.1.1.1
      shared := by
        intro rule hrule hname
        have hthrifty := isThrifty_of_mem hrule
        simp only [isThrifty, hname, Bool.not_true, Bool.false_or, Bool.and_eq_true] at hthrifty
        exact ⟨hrule, hthrifty.1.1.2⟩ }
  barren := by
    intro rule hrule hname
    have hthrifty := isThrifty_of_mem hrule
    simp only [isThrifty, hname, Bool.not_true, Bool.false_or, Bool.and_eq_true] at hthrifty
    refine ⟨hthrifty.1.1.2, ?_⟩
    have hall : nestedConstructs.all (fun name => !thrift.shared.contains name) = true := by decide
    rw [hv, Bool.eq_false_iff]
    intro hmem
    have hnot := List.all_eq_true.mp hall rule.name (List.contains_iff_mem.mp hmem)
    rw [hname] at hnot
    cases hnot

/-- The matches of what the passage lists are tidy. -/
theorem Follows.tidyPart (h : v.Follows thrift depth) (hn : n ≤ depth)
    (hp : p.carries thrift known = true) : v.Tidy n p (v.GoesOn ending known) :=
  h.tidy p known n hn hp

/-- The matches of what the passage seals are tidy whatever follows. -/
theorem Follows.tidyAlways (h : v.Follows thrift depth) (hn : n ≤ depth)
    (hp : p.carries thrift false = true) : v.Tidy n p Q := by
  have htidy : v.Tidy n p (v.GoesOn ending false) := h.tidyPart hn hp
  rw [goesOn_false] at htidy
  exact htidy.anywhere

/-- The failures of what the passage refuses are silent. -/
theorem Follows.silentPart {P : List Char → Prop} (h : v.Follows thrift depth) (hn : n ≤ depth)
    (hp : p.refuses thrift = true) : v.Silent P n p :=
  (h.silent p n hn hp).anywhere

/-- Where neither character stands, a pattern that begins with one of them does not match. -/
theorem shows_of_opensWith {chars : List Char} {k : Nat}
    (hp : p.opensWith v.dialect (isCharacter chars) k = true) :
    v.Shows p (fun s => ¬StartsOutside chars s) Anywhere := by
  intro s parts rest hmatch _ hs
  obtain ⟨c, hc, t, rfl⟩ := head_of_opensWith hp hmatch
  exact hs c rfl hc

theorem shows_of_mem_heads {name : String} {chars : List Char} (hentry : (name, chars) ∈ heads) :
    v.Shows (call name) (fun s => ¬StartsOutside chars s) Anywhere :=
  shows_of_opensWith (List.all_eq_true.mp (opensWith_heads v.dialect) _ hentry)

/-- Padding is quiet, and leaves no character that may not come next. -/
theorem quiet_gap (hsuits : v.Suits thrift) (cue : Cue) {chars : List Char}
    (hchars : chars.all (fun c => !cue.allowed c) = true) :
    v.Quiet (v.GoesOn cue true) n gap (StartsOutside chars) :=
  .of_barren hsuits.barren (by decide) fun _ _ _ hnext hgap =>
    not_mem_of_gap (hnext rfl) hgap hchars

/-! ## Chains -/

/-- Where no variable tail begins, none is walked in vain. -/
theorem silent_variableLink (hfollows : v.Follows thrift depth) (hn : n ≤ depth) :
    v.Silent (StartsOutside ['[', '.']) (n + 1) variableLink :=
  .seq_first (hfollows.silentPart hn (by decide)) (shows_of_mem_heads (.head _))

/-- Where the text goes on as after a statement, no tail is walked in vain. -/
theorem silent_tails (hfollows : v.Follows thrift depth) (hn : n ≤ depth) :
    v.Silent (v.GoesOn ending true) n (inOrder [gap, choice [callLink, variableLink]]) := by
  apply Silent.of_outgrows 2 rfl
  intro hdeep
  obtain ⟨n, rfl⟩ : ∃ m, n = m + 3 := ⟨n - 3, by omega⟩
  have hgap : v.Silent (v.GoesOn ending true) (n + 2) gap :=
    hfollows.silentPart (by omega) (by decide)
  have hcall : v.Silent (StartsOutside ['[', '.']) (n + 1) callLink :=
    hfollows.silentPart (by omega) (by decide)
  have hlinks : v.Silent (StartsOutside ['[', '.']) (n + 2) (choice [callLink, variableLink]) :=
    .choice_cons hcall (.choice_cons (silent_variableLink hfollows (by omega)) .choice_nil)
  exact hgap.seq_cons (quiet_gap hfollows.toSuits ending (by decide))
    (hlinks.seq_last (by rintro _ ⟨⟩))

/-- A call ends tidily where the text goes on as after a statement. -/
theorem tidy_callContinuation (hfollows : v.Follows thrift depth) (hn : n ≤ depth) :
    v.Tidy n callContinuation.body (v.GoesOn ending true) := by
  cases n with
  | zero => exact .zero
  | succ n =>
      exact .opt (silent_tails hfollows (by omega)) (hfollows.tidyPart (by omega) (by decide))

/-- Where no comma stands, no assignment is walked in vain. -/
theorem silent_assignments (hfollows : v.Follows thrift depth) (hn : n ≤ depth) :
    v.Silent (fun s => Derives v.dialect.grammar comma s .failed) n (call "assignments") := by
  have hrule : assignments ∈ v.dialect.rules := by simp [rules, chainStatementRules]
  apply Silent.call hrule
  rintro m rfl
  apply Silent.of_outgrows 2 rfl
  intro hdeep
  obtain ⟨m, rfl⟩ : ∃ k, m = k + 3 := ⟨m - 3, by omega⟩
  have hround : v.Silent (fun s => Derives v.dialect.grammar comma s .failed) (m + 1)
      (ifMust comma [call "variable"]) :=
    hfollows.silentPart (by omega) (by decide)
  have hvalues : v.Silent (fun s => Derives v.dialect.grammar comma s .failed) (m + 3)
      (.seq [gap, call "assignments_one"]) :=
    hfollows.silentPart (by omega) (by decide)
  have hloop : v.Silent (fun s => Derives v.dialect.grammar comma s .failed) (m + 2)
      (many [ifMust comma [call "variable"]]) :=
    .of_not_failed fun _ => Derives.not_failed_star
  refine hloop.seq_cons (.star hround ?_) hvalues
  intro s parts rest hmatch _ hnone
  obtain ⟨_, _, _, hcomma, -, -⟩ := Derives.of_seq_cons hmatch
  cases hcomma.deterministic hnone

/-- A variable is followed tidily by its tails or its assignment. -/
theorem tidy_links (hfollows : v.Follows thrift depth) (hn : n + 1 ≤ depth) :
    v.Tidy (n + 1) (.choice [callLink, variableLink, call "assignments"])
      (v.GoesOn ending true) := by
  have hcall : v.Tidy n callLink (v.GoesOn ending true) :=
    hfollows.tidyPart (by omega) (by decide)
  have hvariable : v.Tidy n variableLink (v.GoesOn ending true) :=
    hfollows.tidyPart (by omega) (by decide)
  have hassignments : v.Tidy (n + 1) (.choice [call "assignments"]) (v.GoesOn ending true) :=
    hfollows.tidyPart hn (by decide)
  have hsilent : v.Silent (StartsOutside ['[', '.']) n variableLink := by
    cases n with
    | zero => exact .zero
    | succ n => exact silent_variableLink hfollows (by omega)
  have hshows : v.Shows (.choice [call "assignments"]) (StartsOutside ['[', '.']) Anywhere :=
    fun s parts rest hmatch _ =>
      not_mem_of_next (next_at_once (fits_ending v.dialect) (by decide) hmatch) (by decide)
  exact hcall.choice_cons (hfollows.silentPart (by omega) (by decide)) shows_anywhere
    (hvariable.choice_cons hsilent hshows hassignments)

/-- Where a compound assignment stands, neither a tail nor another assignment is walked in
vain. -/
theorem silent_links (hfollows : v.Follows thrift depth) (hn : n + 1 ≤ depth) :
    v.Silent (fun s => ∃ op ∈ reassignmentOperators, ∃ t, s = op.toList ++ t) (n + 1)
      (.choice [callLink, variableLink, call "assignments"]) := by
  apply Silent.choice_cons (hfollows.silentPart (by omega) (by decide))
  apply Silent.choice_cons
  · cases n with
    | zero => exact .zero
    | succ n =>
        apply (silent_variableLink hfollows (by omega)).mono
        rintro s ⟨op, hop, t, rfl⟩
        exact startsOutside_of_operator hop t
  · refine .choice_cons ((silent_assignments hfollows (by omega)).mono ?_) .choice_nil
    rintro s ⟨op, hop, t, rfl⟩
    exact failed_comma hop t

/-- What must follow a variable matches tidily. -/
theorem tidy_variableContinuation (hfollows : v.Follows thrift depth) (hn : n ≤ depth) :
    v.Tidy n (variableContinuation v.dialect).body (v.GoesOn ending true) := by
  apply Tidy.of_outgrows 1 rfl
  intro hdeep
  obtain ⟨n, rfl⟩ : ∃ m, n = m + 2 := ⟨n - 2, by omega⟩
  have hgap : v.Tidy (n + 1) gap Anywhere := hfollows.tidyAlways (by omega) (by decide)
  have hreassignment : v.Tidy (n + 1) (.choice (extension [call "reassignment"] v.dialect))
      (v.GoesOn ending true) :=
    hfollows.tidyPart (by omega) (carries_reassignment v.dialect)
  have hlinks : v.Tidy (n + 1) (.choice ([callLink, variableLink, call "assignments"] ++
      extension [call "reassignment"] v.dialect)) (v.GoesOn ending true) :=
    (tidy_links hfollows (by omega)).choice_append (silent_links hfollows (by omega))
      (fun _ _ _ hmatch _ => operator_of_reassignment hmatch) hreassignment
  have hlast : v.Tidy (n + 2) (.seq [.choice ([callLink, variableLink, call "assignments"] ++
      extension [call "reassignment"] v.dialect)]) (v.GoesOn ending true) :=
    hlinks.seq_cons shows_nil .seq_nil
  exact hgap.seq_cons shows_anywhere hlast

/-- A statement that begins with a chain matches tidily. -/
theorem tidy_chainStatement (hfollows : v.Follows thrift depth) (hn : n ≤ depth) :
    v.Tidy n chainStatement.body (v.GoesOn ending true) := by
  apply Tidy.of_outgrows 1 rfl
  intro hdeep
  obtain ⟨n, rfl⟩ : ∃ m, n = m + 2 := ⟨n - 2, by omega⟩
  have hnamed : v.Tidy (n + 1) (inOrder [call "name", call "variable_continuation"])
      (v.GoesOn ending true) :=
    hfollows.tidyPart (by omega) (by decide)
  have hbracket : v.Tidy (n + 2)
      (choice [inOrder [call "bracket_expr", call "bracket_continuation"]])
      (v.GoesOn ending true) :=
    hfollows.tidyPart hn (by decide)
  have hname : v.Silent (fun s => ∃ t, s = '(' :: t) n (call "name") :=
    hfollows.silentPart (by omega) (by decide)
  -- Where a bracket stands no name does, so the first alternative fails at once.
  refine hnamed.choice_cons (hname.seq_first ?_) ?_ hbracket
  · rintro s parts rest hmatch - ⟨t, rfl⟩
    refine not_name_of_head ?_ hmatch
    intro c hc
    cases hc
    decide
  · intro s parts rest hmatch _
    obtain ⟨item, hitem, hothers⟩ := hmatch.of_choice
    obtain rfl := List.mem_singleton.mp hitem
    obtain ⟨_, _, _, hopen, -, -⟩ := hothers.of_seq_cons
    obtain ⟨c, hc, t, rfl⟩ : ∃ c ∈ ['('], ∃ t, s = c :: t :=
      head_of_mem_heads (by simp [heads]) hopen
    exact ⟨t, List.mem_singleton.mp hc ▸ rfl⟩

/-! ## Assignments -/

/-- Where a variable of an assignment ends, no call is walked in vain. -/
theorem silent_variableRound (hfollows : v.Follows thrift depth) (hn : n ≤ depth) :
    v.Silent (v.GoesOn afterVariable true) n variableRound := by
  apply Silent.of_outgrows 2 rfl
  intro hdeep
  obtain ⟨n, rfl⟩ : ∃ m, n = m + 3 := ⟨n - 3, by omega⟩
  have hcalls : v.Silent (v.GoesOn afterVariable true) (n + 2)
      (many [gap, call "function_call_tail"]) :=
    .of_not_failed fun _ => Derives.not_failed_star
  have hcall : v.Silent (v.GoesOn afterVariable true) (n + 1)
      (inOrder [gap, call "function_call_tail"]) :=
    hfollows.silentPart (by omega) (by decide)
  have htail : v.Silent (v.GoesOn afterVariable true) (n + 3)
      (inOrder [gap, call "variable_tail"]) :=
    hfollows.silentPart hn (by decide)
  refine hcalls.seq_cons (.star hcall ?_) htail
  intro s parts rest hmatch _ hnext
  obtain ⟨_, _, _, hgap, hlast, -⟩ := Derives.of_seq_cons hmatch
  obtain ⟨_, _, _, hopen, -, -⟩ := hlast.of_seq_cons
  obtain ⟨c, hc, t, rfl⟩ := head_of_mem_heads (.tail _ (.head _)) hopen
  exact not_mem_of_gap (hnext rfl) hgap (by decide) c rfl hc

/-- A variable of an assignment matches tidily. -/
theorem tidy_variable (hfollows : v.Follows thrift depth) (hn : n ≤ depth) :
    v.Tidy n variableRule.body (v.GoesOn afterVariable true) := by
  apply Tidy.of_outgrows 2 rfl
  intro hdeep
  obtain ⟨n, rfl⟩ : ∃ m, n = m + 3 := ⟨n - 3, by omega⟩
  have hhead : v.Tidy (n + 2) (call "variable_head") Anywhere :=
    hfollows.tidyAlways (by omega) (by decide)
  have hround : v.Tidy (n + 1) variableRound Anywhere :=
    hfollows.tidyAlways (by omega) (by decide)
  have hloop : v.Tidy (n + 2) (many [variableRound]) (v.GoesOn afterVariable true) :=
    .star (silent_variableRound hfollows (by omega)) hround shows_anywhere
  exact hhead.seq_cons shows_anywhere (hloop.seq_cons shows_nil .seq_nil)

/-- The rest of an assignment matches tidily. -/
theorem tidy_assignments (hv : v.watched = nestedConstructs) (hfollows : v.Follows thrift depth)
    (hn : n ≤ depth) : v.Tidy n assignments.body (v.GoesOn ending true) := by
  apply Tidy.of_outgrows 5 rfl
  intro hdeep
  obtain ⟨n, rfl⟩ : ∃ m, n = m + 6 := ⟨n - 6, by omega⟩
  have hcue := fits_afterVariable v.dialect
  have hrule : variableRule ∈ v.dialect.rules := by simp [rules, chainRules]
  have hwatched : v.watched.contains variableRule.name = false := by
    rw [hv]
    decide
  have hvariable : v.Tidy (n + 3) (must (call "variable")) (v.GoesOn afterVariable true) :=
    (Tidy.rule hrule hwatched (tidy_variable hfollows (by omega))).ref.must
  have hcomma : v.Tidy (n + 3) comma Anywhere := hfollows.tidyAlways (by omega) (by decide)
  have hround : v.Tidy (n + 4) (ifMust comma [call "variable"]) (v.GoesOn afterVariable true) :=
    hcomma.seq_cons shows_anywhere (hvariable.seq_cons shows_nil .seq_nil)
  have hsilent : v.Silent (v.GoesOn afterVariable true) (n + 4) (ifMust comma [call "variable"]) :=
    hfollows.silentPart (by omega) (by decide)
  have hloop : v.Tidy (n + 5) (many [ifMust comma [call "variable"]])
      (v.GoesOn afterVariable true) :=
    .star hsilent hround (shows_of_leads hcue (by decide))
  have hvalues : v.Tidy (n + 6) (.seq [gap, call "assignments_one"]) (v.GoesOn ending true) :=
    hfollows.tidyPart hn (by decide)
  refine hloop.seq_cons ?_ hvalues
  exact fun s parts rest hmatch _ _ => next_at_once hcue (by decide) hmatch

/-! ## Loops -/

/-- Where a loop over an iterator stands, one over numbers is not walked beyond its name. -/
theorem silent_forStatementOne (hfollows : v.Follows thrift depth) (hn : n ≤ depth) :
    v.Silent (fun s => ∃ parts rest, Derives v.dialect.grammar (call "name") s
      (.matched parts rest) ∧ beforeIn.Next v.dialect.grammar rest) n
      (call "for_statement_one") := by
  have hrule : forStatementOne ∈ v.dialect.rules := by simp [rules, blockRules]
  apply Silent.call hrule
  rintro m rfl
  cases m with
  | zero => exact .zero
  | succ m =>
      have hequals : v.Silent (StartsOutside ['=']) m (one "=") :=
        hfollows.silentPart (by omega) rfl
      refine .seq_cons (hfollows.silentPart (by omega) (by decide))
        (.of_barren hfollows.barren (by decide) ?_)
        (.seq_cons (hfollows.silentPart (by omega) (by decide))
          (quiet_gap hfollows.toSuits beforeIn (by decide))
          (hequals.seq_first (shows_of_opensWith (k := 0) rfl)))
      rintro s parts rest ⟨parts', rest', hname, hnext⟩ hmatch _
      cases hmatch.deterministic hname
      exact hnext

/-- Either kind of loop matches tidily. -/
theorem tidy_loops (hfollows : v.Follows thrift depth) (hn : n + 1 ≤ depth) :
    v.Tidy (n + 1) (choice [call "for_statement_one", call "for_statement_two"]) Q := by
  have hone : v.Tidy n (call "for_statement_one") Q := hfollows.tidyAlways (by omega) (by decide)
  have htwo : v.Tidy (n + 1) (choice [call "for_statement_two"]) Q :=
    hfollows.tidyAlways hn (by decide)
  refine hone.choice_cons (silent_forStatementOne hfollows (by omega)) ?_ htwo
  intro s parts rest hmatch _
  have hrule : forStatementTwo ∈ v.dialect.rules := by simp [rules, blockRules]
  obtain ⟨item, hitem, hmatch⟩ := hmatch.of_choice
  obtain rfl := List.mem_singleton.mp hitem
  obtain ⟨_, -, hbody⟩ := derives_of_call hrule hmatch
  exact next_of_forStatementTwo hbody

/-- Any loop over numbers or an iterator matches tidily. -/
theorem tidy_forStatement (hfollows : v.Follows thrift depth) (hn : n ≤ depth) :
    v.Tidy n forStatement.body Q := by
  apply Tidy.of_outgrows 2 rfl
  intro hdeep
  obtain ⟨n, rfl⟩ : ∃ m, n = m + 3 := ⟨n - 3, by omega⟩
  have hkey : v.Tidy (n + 2) (key "for") Anywhere := hfollows.tidyAlways (by omega) (by decide)
  have hgap : v.Tidy (n + 2) (must gap) Anywhere := hfollows.tidyAlways (by omega) (by decide)
  have hloops : v.Tidy (n + 2) (must (choice [call "for_statement_one", call "for_statement_two"]))
      Anywhere :=
    (tidy_loops hfollows (by omega)).must
  exact hkey.seq_cons shows_anywhere
    (hgap.seq_cons shows_anywhere (hloops.seq_cons shows_anywhere .seq_nil))

/-! ## Statements -/

/-- Where neither a name nor a bracket stands, no chain is walked in vain. -/
theorem silent_chainStatements (hfollows : v.Follows thrift depth) (hn : n + 1 ≤ depth) :
    v.Silent (fun s => (∀ parts rest, ¬Derives v.dialect.grammar (call "name") s
      (.matched parts rest)) ∧ StartsOutside ['('] s) (n + 1) (.choice chainStatements) := by
  have hrule : chainStatement ∈ v.dialect.rules := by simp [rules, chainStatementRules]
  refine .choice_cons (hfollows.silentPart (by omega) (by decide))
    (.choice_cons (.call hrule ?_) .choice_nil)
  rintro m rfl
  apply Silent.of_outgrows 1 rfl
  intro hdeep
  obtain ⟨m, rfl⟩ : ∃ k, m = k + 2 := ⟨m - 2, by omega⟩
  refine .choice_cons (.seq_first (hfollows.silentPart (by omega) (by decide)) ?_)
    (.choice_cons (.seq_first (hfollows.silentPart (by omega) (by decide)) ?_) .choice_nil)
  · exact fun s parts rest hmatch _ hnone => hnone.1 parts rest hmatch
  · intro s parts rest hmatch _ hnone
    have hbracket : (⟨"bracket_expr", ['(']⟩ : String × List Char) ∈ heads := by simp [heads]
    exact shows_of_mem_heads hbracket s parts rest hmatch trivial hnone.2

/-- Whether an `if` commits at its keyword or after its `then`, its keyword comes first. -/
theorem body_ifStatement (dialect : Dialect) :
    (∃ items, (ifStatement dialect).body = .seq (key "if" :: items)) ∨
      ∃ inner items, (ifStatement dialect).body = .seq (.seq (key "if" :: inner) :: items) := by
  cases dialect with
  | canonical => exact .inl ⟨_, rfl⟩
  | pico8 => exact .inr ⟨_, _, rfl⟩

theorem mem_shortIfStatement {α : Type} {items : List α} {x : α} {dialect : Dialect}
    (h : x ∈ extension items dialect) : shortIfStatement ∈ dialect.rules := by
  cases dialect with
  | canonical => cases h
  | pico8 => simp [rules, blockRules, extension]

/-- What only matches as a short `if` does not lack one. -/
theorem not_lacks_of_extension {dialect : Dialect} {s rest : List Char} {parts : List Tree}
    (h : Derives dialect.grammar (.choice (extension [call "short_if_statement"] dialect)) s
      (.matched parts rest)) : ¬Tree.Lacks shortIfStatement.name parts := by
  obtain ⟨item, hitem, hmatch⟩ := h.of_choice
  obtain rfl := List.mem_singleton.mp (mem_of_mem_extension hitem)
  obtain ⟨inner, rfl, -⟩ := derives_of_call (mem_shortIfStatement hitem) hmatch
  exact fun hlacks => (Tree.Lacks.node_iff.mp hlacks).1 rfl

/-- Where no `if` stands, none of either kind is walked in vain. -/
theorem silent_ifs (hfollows : v.Follows thrift depth) (hn : n + 1 ≤ depth) :
    v.Silent (fun s => ∀ parts rest, ¬Derives v.dialect.grammar (key "if") s
      (.matched parts rest)) (n + 1)
      (.choice ([call "if_statement"] ++ extension [call "short_if_statement"] v.dialect)) := by
  have hnone : v.Shows (key "if") (fun s => ¬∀ parts rest, ¬Derives v.dialect.grammar (key "if") s
      (.matched parts rest)) Anywhere :=
    fun s parts rest hmatch _ hnone => hnone parts rest hmatch
  apply Silent.choice
  intro item hitem
  rcases List.mem_append.mp hitem with hitem | hitem
  · obtain rfl := List.mem_singleton.mp hitem
    apply Silent.call (mem_ifStatement v.dialect)
    rintro m rfl
    rcases body_ifStatement v.dialect with ⟨items, hbody⟩ | ⟨inner, items, hbody⟩
    · rw [hbody]
      exact .seq_of_first (fun k hk => hfollows.silentPart (by omega) (by decide)) hnone
    · rw [hbody]
      apply Silent.seq_of_first
      · exact fun k hk =>
          .seq_of_first (fun l hl => hfollows.silentPart (by omega) (by decide)) hnone
      · intro s parts rest hmatch _
        obtain ⟨_, _, _, hkey, -, -⟩ := Derives.of_seq_cons hmatch
        exact hnone _ _ _ hkey trivial
  · obtain rfl := List.mem_singleton.mp (mem_of_mem_extension hitem)
    apply Silent.call (mem_shortIfStatement hitem)
    rintro m rfl
    exact .seq_of_first (fun k hk => hfollows.silentPart (by omega) (by decide)) hnone

/-- A statement after the chains begins with a keyword or is a label. -/
theorem opensWith_later (dialect : Dialect) :
    (choice (blockStatements ++ (([call "if_statement"] ++
      extension [call "short_if_statement"] dialect) ++ definitionStatements))).opensWith dialect
        isMark 8 = true := by
  cases dialect <;> decide

/-- Any statement but a short `if` matches tidily. -/
theorem tidy_statement (hfollows : v.Follows thrift depth) (hn : n ≤ depth) :
    v.Tidy n (statement v.dialect).body (v.GoesOn ending true) := by
  cases n with
  | zero => exact .zero
  | succ n =>
      have hchains : v.Tidy (n + 1) (choice chainStatements) (v.GoesOn ending true) :=
        hfollows.tidyPart hn (by decide)
      have hblocks : v.Tidy (n + 1) (choice blockStatements) (v.GoesOn ending true) :=
        hfollows.tidyPart hn (by decide)
      have hif : v.Tidy (n + 1) (choice [call "if_statement"]) (v.GoesOn ending true) :=
        hfollows.tidyPart hn (by decide)
      have hdefinitions : v.Tidy (n + 1) (choice definitionStatements) (v.GoesOn ending true) :=
        hfollows.tidyPart hn (by decide)
      have hblockFailures : v.Silent Anywhere (n + 1) (choice blockStatements) :=
        hfollows.silentPart hn (by decide)
      rw [statement_body]
      refine hchains.choice_append (silent_chainStatements hfollows hn) ?_
        (hblocks.choice_append hblockFailures shows_anywhere
          ((hif.choice_append_shortIf fun _ _ _ => not_lacks_of_extension).choice_append
            (silent_ifs hfollows hn) ?_ hdefinitions))
      · exact fun s parts rest hmatch _ => not_chain_of_mark (opensWith_later v.dialect) hmatch
      · intro s parts rest hmatch _ more left hif
        obtain ⟨-, -, -, hopens⟩ := opensWith_statements v.dialect
        obtain ⟨word, hword, _, _, hkey⟩ := key_of_opensWith hopens hmatch
        have hall : ∀ word ∈ ["for", "function", "local"], word ∈ keywords ∧ word ≠ "if" := by
          decide
        obtain ⟨hkeyword, hother⟩ := hall word hword
        exact hother (eq_of_keys hkeyword (by decide) hkey hif)

end Survey

end CartLua
