import Mathlib.Data.List.TakeWhile
import CartLua.Proofs.Syntax.Chains

/-!
# The targets of assignments

The first target of an assignment is walked as the beginning of a statement, and those after a
comma by the rule of variables.  That rule begins with a name, or with a bracket and a variable
tail at once, and goes on by rounds of calls before a variable tail.  A bracket that is called
first is no beginning for it, so such a chain is a target only in the first place.
-/

namespace CartLua

open Dialect Pattern

namespace Chain

/-- Whether the head of a chain is a variable, with its first tail if it is in brackets. -/
def HeadIsVariable (c : Chain) : Prop :=
  c.bracketed = true → ∃ t ∈ c.tails.head?, t.isCall = false

/-- The tails after a head that is a variable. -/
def tailsAfterHead (c : Chain) : Option (List ChainTail) :=
  match c.bracketed, c.tails with
  | false, tails => some tails
  | true, [] => none
  | true, t :: ts => if t.isCall then none else some ts

theorem tailsAfterHead_eq_none {c : Chain} : c.tailsAfterHead = none ↔ ¬c.HeadIsVariable := by
  rcases c with ⟨_ | _, head, _ | ⟨t, ts⟩⟩ <;> simp [tailsAfterHead, HeadIsVariable]

theorem of_tailsAfterHead {c : Chain} {tails : List ChainTail}
    (h : c.tailsAfterHead = some tails) :
    c.HeadIsVariable ∧ endsOnVariable true c.tails = endsOnVariable true tails := by
  rcases c with ⟨_ | _, head, others⟩
  case false =>
    obtain rfl : others = tails := Option.some.inj h
    exact ⟨nofun, rfl⟩
  case true =>
    cases others with
    | nil => cases h
    | cons t ts =>
        cases hcall : t.isCall with
        | true => simp [tailsAfterHead, hcall] at h
        | false =>
            obtain rfl : ts = tails := by simpa [tailsAfterHead, hcall] using h
            exact ⟨fun _ => ⟨t, rfl, hcall⟩, by simp [endsOnVariable, hcall]⟩

end Chain

namespace Dialect

variable {dialect : Dialect} {e s rest : List Char} {x : Remnant}

/-! ## The rule of variables -/

/-- The calls before a variable tail. -/
def callsBefore : Pattern := many [gap, call "function_call_tail"]

/-- The rounds of a variable after its head. -/
def variableRounds : Pattern := many [callsBefore, gap, call "variable_tail"]

theorem leaves_callsBefore (h : dialect.Ending e x) (tails : List ChainTail) :
    Leaves dialect.grammar callsBefore (ChainTail.textOfAll tails ++ e)
      (.rest (ChainTail.textOfAll (tails.dropWhile ChainTail.isCall) ++ e)) := by
  induction tails with
  | nil =>
      obtain ⟨u, hgap, hcallTail, -, -⟩ := h.exists_gap
      exact .star_stop (.seq_cons hgap (.seq_failed hcallTail))
  | cons t ts ih =>
      have hrest := ChainTail.endsWord_textOfAll ts h.endsWord
      have hgap := takes_gap_tail dialect t hrest
      have hcallTail := leaves_callTail dialect t hrest
      rw [ChainTail.textOfAll_cons, List.append_assoc]
      cases hcall : t.isCall with
      | true =>
          rw [hcall] at hcallTail
          rw [List.dropWhile_cons_of_pos hcall]
          have hround : Leaves dialect.grammar (.seq [gap, .call "function_call_tail"]) _ _ :=
            .seq_cons hgap (.seq_last hcallTail)
          exact .star_more hround ih
      | false =>
          rw [hcall] at hcallTail
          rw [List.dropWhile_cons_of_neg (by simp [hcall]), ChainTail.textOfAll_cons,
            List.append_assoc]
          exact .star_stop (.seq_cons hgap (.seq_failed hcallTail))

/-- The rounds of a variable leave the calls at the end. -/
theorem exists_leaves_variableRounds (h : dialect.Ending e x) (tails : List ChainTail) :
    ∃ calls, (∀ t ∈ calls, t.isCall = true) ∧ (calls = [] ↔ endsOnVariable true tails = true) ∧
      Leaves dialect.grammar variableRounds (ChainTail.textOfAll tails ++ e)
        (.rest (ChainTail.textOfAll calls ++ e)) := by
  have hcalls := leaves_callsBefore h tails
  rcases hsplit : tails.dropWhile ChainTail.isCall with _ | ⟨v, more⟩
  case nil =>
    rw [hsplit] at hcalls
    obtain ⟨u, hgap, -, hvariableTail, -⟩ := h.exists_gap
    have hall : ∀ t ∈ tails, t.isCall = true := List.dropWhile_eq_nil_iff.mp hsplit
    refine ⟨tails, hall, ?_, .star_stop (.seq_cons hcalls (.seq_cons hgap (.seq_failed
      hvariableTail)))⟩
    rcases tails.eq_nil_or_concat with rfl | ⟨ts, t, rfl⟩
    · simp [endsOnVariable]
    · simp [endsOnVariable_eq, hall t (by simp)]
  case cons =>
    have hvariable : v.isCall = false := by
      simpa [hsplit] using List.head?_dropWhile_not ChainTail.isCall tails
    have hends : endsOnVariable true tails = endsOnVariable true more := by
      rw [← tails.takeWhile_append_dropWhile (p := ChainTail.isCall), hsplit]
      rw [endsOnVariable_append, endsOnVariable, hvariable]
      rfl
    have hshorter : more.length < tails.length := by
      have hle := List.length_dropWhile_le ChainTail.isCall tails
      rw [hsplit] at hle
      exact hle
    have hrest := ChainTail.endsWord_textOfAll more h.endsWord
    have hgap := takes_gap_tail dialect v hrest
    have hvariableTail := leaves_variableTail dialect v hrest
    obtain ⟨calls, hall, hnil, hrounds⟩ := exists_leaves_variableRounds h more
    rw [hsplit, ChainTail.textOfAll_cons, List.append_assoc] at hcalls
    rw [hvariable] at hvariableTail
    have hround : Leaves dialect.grammar (.seq [callsBefore, gap, .call "variable_tail"]) _ _ :=
      .seq_cons hcalls (.seq_cons hgap (.seq_last hvariableTail))
    exact ⟨calls, hall, by rw [hnil, hends], .star_more hround hrounds⟩
termination_by tails.length

/-- A variable begins with a name, or with a bracket and a variable tail. -/
theorem leaves_variableHead (h : dialect.Ending e x) (c : Chain) :
    Leaves dialect.grammar (.call "variable_head") (c.text ++ e)
      (c.tailsAfterHead.elim .failed fun tails => .rest (ChainTail.textOfAll tails ++ e)) := by
  have hhead : variableHead ∈ dialect.rules := by simp [rules, chainRules]
  have hheadOne : variableHeadOne ∈ dialect.rules := by simp [rules, chainRules]
  have hrest := ChainTail.endsWord_textOfAll c.tails h.endsWord
  have hname := leaves_name_head dialect c hrest
  have hbracket := leaves_bracket_head dialect c hrest
  rw [Chain.text, List.append_assoc]
  refine .call hhead ?_
  rcases c with ⟨_ | _, head, tails⟩
  case false => exact .choice_here hname
  case true =>
    refine .choice_next hname (.choice_last (.call hheadOne (.seq_cons hbracket ?_)))
    cases tails with
    | nil =>
        obtain ⟨u, hgap, -, hvariableTail, -⟩ := h.exists_gap
        exact .seq_cons hgap (.seq_failed hvariableTail)
    | cons t ts =>
        have htail := ChainTail.endsWord_textOfAll ts h.endsWord
        have hgap := takes_gap_tail dialect t htail
        have hvariableTail := leaves_variableTail dialect t htail
        simp only [ChainTail.textOfAll_cons, List.append_assoc, Chain.tailsAfterHead]
        cases hcall : t.isCall with
        | true =>
            rw [hcall] at hvariableTail
            exact .seq_cons hgap (.seq_failed hvariableTail)
        | false =>
            rw [hcall] at hvariableTail
            exact .seq_cons hgap (.seq_last hvariableTail)

/-- The rule of variables leaves the calls at the end of a chain, if it does not fail at the
head. -/
theorem leaves_variable (h : dialect.Ending e x) (c : Chain) :
    (¬c.HeadIsVariable ∧ Leaves dialect.grammar (.call "variable") (c.text ++ e) .failed) ∨
      c.HeadIsVariable ∧ ∃ calls, (∀ t ∈ calls, t.isCall = true) ∧
        (calls = [] ↔ endsOnVariable true c.tails = true) ∧
        Leaves dialect.grammar (.call "variable") (c.text ++ e)
          (.rest (ChainTail.textOfAll calls ++ e)) := by
  have hrule : variableRule ∈ dialect.rules := by simp [rules, chainRules]
  have hhead := leaves_variableHead h c
  cases hafter : c.tailsAfterHead with
  | none =>
      rw [hafter] at hhead
      exact .inl ⟨Chain.tailsAfterHead_eq_none.mp hafter, .call hrule (.seq_failed hhead)⟩
  | some tails =>
      rw [hafter] at hhead
      obtain ⟨hvariable, hends⟩ := Chain.of_tailsAfterHead hafter
      obtain ⟨calls, hall, hnil, hrounds⟩ := exists_leaves_variableRounds h tails
      rw [← hends] at hnil
      exact .inr ⟨hvariable, calls, hall, hnil, .call hrule (.seq_cons hhead (.seq_last hrounds))⟩

/-! ## Later targets -/

/-- A further target of an assignment. -/
def furtherTarget : Pattern := ifMust (pad (one ",") (call "sep")) [call "variable"]

/-- How a comma before a chain is seen. -/
theorem look_comma (dialect : Dialect) :
    ∀ o ∈ ([[.name], [.char '(', .name, .char ')']] : List Outline),
      look dialect levels gap (.char ',' :: .char ' ' :: o) = .takes (.char ',' :: .char ' ' :: o) ∧
        look dialect levels (Pattern.call "function_call_tail") (.char ',' :: .char ' ' :: o) =
          .fails ∧
        look dialect levels (Pattern.call "variable_tail") (.char ',' :: .char ' ' :: o) = .fails ∧
        look dialect levels (choice (dialect.extension [.call "reassignment"]))
          (.char ',' :: .char ' ' :: o) = .fails ∧
        look dialect levels (pad (one ",") (.call "sep")) (.char ',' :: .char ' ' :: o) =
          .takes o := by
  cases dialect <;> decide

/-- How the text after a target is seen: there is no further one, and the values of an assignment
begin with their sign only. -/
theorem look_afterTarget (dialect : Dialect) :
    (look dialect levels furtherTarget (Token.outline (Token.ofChars " = 1, 2".toList)) = .fails ∧
      look dialect levels (seq [gap, .call "assignments_one"])
        (Token.outline (Token.ofChars " = 1, 2".toList)) = .takes [.finish]) ∧
    ∀ entry ∈ tailOutlines, look dialect levels furtherTarget entry.1 = .fails ∧
      look dialect levels (seq [gap, .call "assignments_one"]) entry.1 = .fails := by
  cases dialect <;> decide

/-- After a target there is no further one.  The values follow if no calls are left of it. -/
theorem leaves_afterTargets (dialect : Dialect) (calls : List ChainTail) :
    ∃ y, (y = .rest [] ∧ calls = [] ∨ y = .failed ∧ calls ≠ []) ∧
      Leaves dialect.grammar furtherTarget (ChainTail.textOfAll calls ++ " = 1, 2".toList)
        .failed ∧
      Leaves dialect.grammar (.seq [gap, .call "assignments_one"])
        (ChainTail.textOfAll calls ++ " = 1, 2".toList) y := by
  obtain ⟨⟨hnone, hvalues⟩, htails⟩ := look_afterTarget dialect
  cases calls with
  | nil =>
      have hfit := Token.fit_ofChars " = 1, 2".toList
      have hstop := failed_of_look hfit hnone
      have htaken := takes_of_look (" = 1, 2".toList.map Token.char) [.finish] hfit hvalues
      rw [Token.text_ofChars] at hstop
      rw [← Token.ofChars, Token.text_ofChars] at htaken
      exact ⟨.rest [], .inl ⟨rfl, rfl⟩, hstop, htaken⟩
  | cons t ts =>
      have hrest := ChainTail.endsWord_textOfAll ts (ending_assignments dialect).endsWord
      have hfit := t.fit_tokens hrest
      obtain ⟨hnone, hvalues⟩ := htails _ (mem_tailOutlines t)
      have hstop := failed_of_look hfit hnone
      have hfailed := failed_of_look hfit hvalues
      rw [t.text_tokens, ← List.append_assoc, ← ChainTail.textOfAll_cons] at hstop hfailed
      exact ⟨.failed, .inr ⟨rfl, by simp⟩, hstop, hfailed⟩

/-- What is left of the assignments that begin with a comma and a chain. -/
theorem exists_leaves_assignments (c : Chain)
    (hcomma : Takes dialect.grammar (pad (one ",") (.call "sep"))
      (", ".toList ++ (c.text ++ " = 1, 2".toList)) (c.text ++ " = 1, 2".toList)) :
    ∃ y, (y = .rest [] ∨ y = .failed ∨ y = .broken) ∧
      (y = .rest [] ↔ (c.EndsOnVariable ∨ c.IsName) ∧ c.HeadIsVariable) ∧
      Leaves dialect.grammar (.call "assignments")
        (", ".toList ++ (c.text ++ " = 1, 2".toList)) y := by
  have hrule : assignments ∈ dialect.rules := by simp [rules, chainStatementRules]
  rcases leaves_variable (ending_assignments dialect) c with
    ⟨hhead, hfailed⟩ | ⟨hhead, calls, hall, hnil, htaken⟩
  · have hround : Leaves dialect.grammar furtherTarget
        (", ".toList ++ (c.text ++ " = 1, 2".toList)) .broken :=
      .seq_cons hcomma (.seq_broken (Leaves.must hfailed))
    exact ⟨.broken, by simp, by simp [hhead], .call hrule (.seq_broken (Leaves.star_broken hround))⟩
  · obtain ⟨y, hy, hstop, hvalues⟩ := leaves_afterTargets dialect calls
    have hround : Leaves dialect.grammar furtherTarget
        (", ".toList ++ (c.text ++ " = 1, 2".toList)) _ :=
      .seq_cons hcomma (.seq_last (Leaves.must htaken))
    have htargets : Leaves dialect.grammar (.star none furtherTarget) _ _ :=
      .star_more hround (.star_stop hstop)
    have hmore : c.bracketed = true → c.tails ≠ [] := by
      rintro hbracketed hnone
      obtain ⟨t, ht, -⟩ := hhead hbracketed
      simp [hnone] at ht
    refine ⟨y, by tauto, ?_, .call hrule (.seq_cons htargets hvalues)⟩
    rw [← endsOnVariable_tails, ← hnil]
    rcases hy with ⟨rfl, hcalls⟩ | ⟨rfl, hcalls⟩
    · exact ⟨fun _ => ⟨⟨hmore, hcalls⟩, hhead⟩, fun _ => rfl⟩
    · simp [hcalls]

/-- A chain after a comma is taken as a further target, with the values after it, just if it can
be assigned to and its head is a variable. -/
theorem exists_ending_targets (dialect : Dialect) (c : Chain) :
    ∃ y, dialect.Ending (", ".toList ++ (c.text ++ " = 1, 2".toList)) y ∧
      (y = .rest [] ∨ y = .failed ∨ y = .broken) ∧
      (y = .rest [] ↔ (c.EndsOnVariable ∨ c.IsName) ∧ c.HeadIsVariable) := by
  have hrest := ChainTail.endsWord_textOfAll c.tails (ending_assignments dialect).endsWord
  have hfit : Token.Fit ([.char ',', .char ' '] ++ c.headTokens)
    (ChainTail.textOfAll c.tails ++ " = 1, 2".toList) := c.fit_headTokens hrest
  have hchain : Token.text c.headTokens (ChainTail.textOfAll c.tails ++ " = 1, 2".toList) =
      c.text ++ " = 1, 2".toList := by
    rw [Chain.text, List.append_assoc, c.text_headTokens]
  have htext : Token.text ([.char ',', .char ' '] ++ c.headTokens)
      (ChainTail.textOfAll c.tails ++ " = 1, 2".toList) =
      ", ".toList ++ (c.text ++ " = 1, 2".toList) :=
    congrArg (", ".toList ++ ·) hchain
  have hmem : Token.outline c.headTokens ∈
      ([[.name], [.char '(', .name, .char ')']] : List Outline) := by
    rcases c with ⟨_ | _, head, tails⟩ <;> simp [Chain.headTokens, Token.outline, Token.mark]
  obtain ⟨hgap, hcall, hvariable, hreassign, hcomma⟩ := look_comma dialect _ hmem
  have hcommaTaken := takes_of_look _ c.headTokens hfit hcomma
  rw [htext, hchain] at hcommaTaken
  obtain ⟨y, hy, hiff, hassignments⟩ := exists_leaves_assignments c hcommaTaken
  refine ⟨y, ⟨ChainTail.endsWord_cons (by decide) _,
    ", ".toList ++ (c.text ++ " = 1, 2".toList), ?_, ?_, ?_, ?_⟩, hy, hiff⟩
  · exact htext ▸ takes_of_look_self hfit hgap
  · exact htext ▸ failed_of_look hfit hcall
  · exact htext ▸ failed_of_look hfit hvariable
  · rw [← y.orElse_failed]
    exact hassignments.choice_cons fun _ => htext ▸ failed_of_look hfit hreassign

/-! ## Programs of one statement -/

/-- The end of a program, perhaps after a return statement. -/
def programEnd : Pattern :=
  choice [endOfInput, ifMust (key "return") [call "statement_return", endOfInput]]

/-- The statements after those that begin with a chain. -/
def otherStatements (dialect : Dialect) : List Pattern :=
  [call "label_statement", key "break", call "goto_statement", call "do_statement",
    call "while_statement", call "repeat_statement", call "if_statement"] ++
    dialect.extension [call "short_if_statement"] ++
    [call "for_statement", call "function_definition", call "local_statement"]

/-- How the beginning of a chain is seen: no program and no other statement begins there. -/
theorem look_beginnings (dialect : Dialect) :
    ∀ o ∈ ([[.name], [.char '(']] : List Outline),
      look dialect levels (.call "interpreter") o = .fails ∧
        look dialect levels gap o = .takes o ∧
        look dialect levels programEnd o = .fails ∧
        look dialect levels (.call "semicolon") o = .fails ∧
        look dialect levels (choice dialect.otherStatements) o = .fails := by
  cases dialect <;> decide

/-- How the text where a statement is stuck is seen. -/
theorem look_stuck (dialect : Dialect) :
    (∀ o ∈ ([[.char '.'], [.char '['], [.char '=']] : List Outline),
      look dialect levels gap o = .takes o ∧ look dialect levels programEnd o = .fails ∧
        look dialect levels (.call "statement") o = .fails) ∧
      look dialect levels gap [.char ' ', .char '='] = .takes [.char '='] := by
  cases dialect <;> decide

/-- How the end of a text is seen: a program ends there. -/
theorem look_end (dialect : Dialect) :
    look dialect levels gap [.finish] = .takes [.finish] ∧
      look dialect levels programEnd [.finish] = .takes [.finish] := by
  cases dialect <;> decide

/-- Whether only a statement that begins with a chain may begin at a text. -/
structure Begins (dialect : Dialect) (s : List Char) : Prop where
  interpreter : Derives dialect.grammar (.call "interpreter") s .failed
  gap : Takes dialect.grammar Dialect.gap s s
  programEnd : Derives dialect.grammar Dialect.programEnd s .failed
  semicolon : Derives dialect.grammar (.call "semicolon") s .failed
  others : Derives dialect.grammar (.choice dialect.otherStatements) s .failed

/-- Whether a program neither goes on with a statement nor ends. -/
def Stuck (dialect : Dialect) (s : List Char) : Prop :=
  ∃ u, Takes dialect.grammar gap s u ∧ Derives dialect.grammar programEnd u .failed ∧
    Derives dialect.grammar (.call "statement") u .failed

theorem begins_chain (dialect : Dialect) (c : Chain) (hrest : EndsWord rest) :
    dialect.Begins (c.headText ++ rest) := by
  have hbegins : ∀ (ts : List Token) (s : List Char), Token.Fit ts s →
      Token.outline ts ∈ ([[.name], [.char '(']] : List Outline) →
      dialect.Begins (Token.text ts s) := by
    intro ts s hfit hmem
    obtain ⟨hinterpreter, hgap, hend, hsemicolon, hothers⟩ := look_beginnings dialect _ hmem
    exact ⟨failed_of_look hfit hinterpreter, takes_of_look_self hfit hgap,
      failed_of_look hfit hend, failed_of_look hfit hsemicolon, failed_of_look hfit hothers⟩
  rcases c with ⟨_ | _, head, tails⟩
  case false =>
    exact hbegins [.name head] rest ⟨hrest, trivial⟩ (by simp [Token.outline, Token.mark])
  case true =>
    exact hbegins [.char '('] (head.chars ++ [')'] ++ rest) trivial
      (by simp [Token.outline, Token.mark])

theorem stuck_tail {t : ChainTail} (hvariable : t.isCall = false) (s : List Char) :
    dialect.Stuck (t.text ++ s) := by
  have hstuck : ∀ (c : Char) (s : List Char), [Mark.char c] ∈
      ([[.char '.'], [.char '['], [.char '=']] : List Outline) → dialect.Stuck (c :: s) := by
    intro c s hmem
    have hfit : Token.Fit [.char c] s := trivial
    obtain ⟨hgap, hend, hstatement⟩ := (look_stuck dialect).1 _ hmem
    exact ⟨_, takes_of_look_self hfit hgap, failed_of_look hfit hend,
      failed_of_look hfit hstatement⟩
  cases t with
  | field n => exact hstuck '.' _ (by simp)
  | index n => exact hstuck '[' _ (by simp)
  | call n => cases hvariable
  | method m n => cases hvariable

theorem stuck_assignment (s : List Char) : dialect.Stuck (' ' :: '=' :: s) := by
  obtain ⟨hstuck, hgap⟩ := look_stuck dialect
  obtain ⟨-, hend, hstatement⟩ := hstuck [.char '='] (by simp)
  have hfit : Token.Fit [.char '='] s := trivial
  exact ⟨_, takes_of_look [.char ' '] [.char '='] hfit hgap,
    failed_of_look hfit hend, failed_of_look hfit hstatement⟩

/-- A program that begins with a chain is accepted just if its first statement takes all of it,
when the statement leaves nothing else that a program could go on with. -/
theorem acceptsJust_of_statement (hbegins : dialect.Begins s)
    (hchain : Leaves dialect.grammar (.call "chain_statement") s x)
    (hstuck : ∀ r, x = .rest r → r ≠ [] → dialect.Stuck r) :
    dialect.AcceptsJust s (x = .rest []) := by
  have hstatement : Leaves dialect.grammar (.call "statement") s x := by
    refine .call (mem_statement dialect) (.choice_next hbegins.semicolon ?_)
    rw [← x.orElse_failed]
    exact hchain.choice_cons fun _ => hbegins.others
  obtain ⟨y, hy, hstatements⟩ : ∃ y, (y = .rest [] ↔ x = .rest []) ∧ Leaves dialect.grammar
      (.repeatUntil none programEnd (.seq [.call "statement", gap])) s y := by
    cases x with
    | rest r =>
        by_cases hr : r = []
        · subst hr
          obtain ⟨hgap, hend⟩ := look_end dialect
          have hfit : Token.Fit [.finish] [] := ⟨rfl, rfl⟩
          have hround : Leaves dialect.grammar (.seq [.call "statement", gap]) s (.rest []) :=
            .seq_cons hstatement (.seq_last (takes_of_look_self hfit hgap))
          exact ⟨.rest [], Iff.rfl, .until_more hbegins.programEnd hround
            (.until_here (takes_of_look_self hfit hend))⟩
        · obtain ⟨u, hgap, hend, hnone⟩ := hstuck r rfl hr
          have hround : Leaves dialect.grammar (.seq [.call "statement", gap]) s (.rest u) :=
            .seq_cons hstatement (.seq_last hgap)
          exact ⟨.failed, by simp [hr], .until_more hbegins.programEnd hround
            (.until_stop hend (.seq_failed hnone))⟩
    | failed => exact ⟨.failed, by simp, .until_stop hbegins.programEnd (.seq_failed hstatement)⟩
    | broken => exact ⟨.broken, by simp, .until_broken hbegins.programEnd (.seq_broken hstatement)⟩
  have hbody := (Leaves.seq_cons hbegins.gap (.seq_last hstatements)).must
  have hprogram : program ∈ dialect.rules := by simp [rules, definitionRules]
  have hopt := (Leaves.opt (x := .failed) hbegins.interpreter).must
  have hroot : Leaves dialect.grammar (.rule rootName) s _ :=
    .of_call (.call hprogram (.seq_cons hopt (.seq_last hbody)))
  have haccepts := acceptsJust_of_leaves hroot
  have hiff : (if y = .failed then Remnant.broken else y) = .rest [] ↔ x = .rest [] := by
    rw [← hy]
    split <;> simp_all
  rwa [hiff] at haccepts

/-! ## The first target -/

theorem leftOfTails_call_ne_failed (e : List Char) (x : Remnant) (tails : List ChainTail) :
    leftOfTails e x false tails ≠ .failed := by
  cases tails with
  | nil => nofun
  | cons t ts =>
      rw [leftOfTails]
      cases leftOfTails e x (!t.isCall) ts <;> simp

/-- A walk leaves nothing, the ending, or a text from a variable tail on. -/
theorem of_leftOfTails_eq_rest {r : List Char} (hx : ∀ r, x = .rest r → r = [])
    (tails : List ChainTail) {afterVariable : Bool}
    (h : leftOfTails e x afterVariable tails = .rest r) :
    r = [] ∨ r = e ∨ ∃ t s, t.isCall = false ∧ r = ChainTail.text t ++ s := by
  induction tails generalizing afterVariable with
  | nil =>
      cases afterVariable with
      | true => exact .inl (hx r h)
      | false => exact .inr (.inl (Remnant.rest.inj h).symm)
  | cons t ts ih =>
      rw [leftOfTails] at h
      cases hnext : leftOfTails e x (!t.isCall) ts with
      | rest u =>
          rw [hnext] at h
          exact ih (hnext.trans h)
      | broken => rw [hnext] at h; cases h
      | failed =>
          have hvariable : t.isCall = false := by
            cases hcall : t.isCall with
            | false => rfl
            | true =>
                rw [hcall] at hnext
                exact absurd hnext (leftOfTails_call_ne_failed e x ts)
          rw [hnext] at h
          cases afterVariable with
          | true => cases h
          | false =>
              refine .inr (.inr ⟨t, ChainTail.textOfAll ts ++ e, hvariable, ?_⟩)
              rw [← Remnant.rest.inj h, ChainTail.textOfAll_cons, List.append_assoc]

theorem of_leftOfChain_eq_rest {r : List Char} (hx : ∀ r, x = .rest r → r = []) {c : Chain}
    (h : leftOfChain e x c = .rest r) :
    r = [] ∨ r = e ∨ ∃ t s, t.isCall = false ∧ r = ChainTail.text t ++ s := by
  rcases c with ⟨_ | _, head, _ | ⟨t, ts⟩⟩
  case false.nil => exact of_leftOfTails_eq_rest hx [] h
  case false.cons => exact of_leftOfTails_eq_rest hx (t :: ts) h
  case true.nil => cases h
  case true.cons => exact of_leftOfTails_eq_rest hx ts h

/-- A single assignment to a chain is accepted just if the chain can be assigned to. -/
theorem acceptsJust_assignment (dialect : Dialect) (c : Chain) :
    dialect.AcceptsJust (c.text ++ " = 1".toList) (c.EndsOnVariable ∨ c.IsName) := by
  have hending := ending_assignment dialect
  have hbegins : dialect.Begins (c.text ++ " = 1".toList) := by
    rw [Chain.text, List.append_assoc]
    exact begins_chain dialect c (ChainTail.endsWord_textOfAll c.tails hending.endsWord)
  have haccepts := acceptsJust_of_statement hbegins (leaves_chainStatement hending c) ?_
  · rwa [leftOfChain_assignment (by decide)] at haccepts
  · intro r hleft hr
    rcases of_leftOfChain_eq_rest (fun r h => (Remnant.rest.inj h).symm) hleft with
      hnil | rfl | ⟨t, s, hvariable, rfl⟩
    · exact absurd hnil hr
    · exact stuck_assignment _
    · exact stuck_tail hvariable s

/-- A further target of an assignment is accepted just if the chain can be assigned to and its
head is a variable. -/
theorem acceptsJust_assignments (dialect : Dialect) (x : Identifier) (c : Chain) :
    dialect.AcceptsJust (x.chars ++ ", ".toList ++ c.text ++ " = 1, 2".toList)
      ((c.EndsOnVariable ∨ c.IsName) ∧ c.HeadIsVariable) := by
  obtain ⟨y, hending, hy, hiff⟩ := exists_ending_targets dialect c
  have hhead : Chain.headText ⟨false, x, []⟩ = x.chars := rfl
  have hbegins := begins_chain dialect ⟨false, x, []⟩ hending.endsWord
  have hchain := leaves_chainStatement hending ⟨false, x, []⟩
  rw [Chain.text, ChainTail.textOfAll_nil, List.append_nil, hhead] at hchain
  rw [hhead] at hbegins
  have haccepts := acceptsJust_of_statement hbegins hchain fun r hr hne => ?_
  · have hleft : leftOfChain (", ".toList ++ (c.text ++ " = 1, 2".toList)) y ⟨false, x, []⟩ = y :=
      rfl
    rw [hleft, hiff] at haccepts
    simpa only [List.append_assoc] using haccepts
  · obtain rfl : y = .rest r := hr
    simp [hne] at hy

end Dialect

/-- A chain can be the first target of an assignment just if it ends on a variable or is a name.
After a comma it can be a target just if, besides, its head is a variable: a bracket that a call
follows is refused there. -/
theorem further_targets_begin_with_variable (dialect : Dialect) (x : Identifier) (c : Chain) :
    dialect.AcceptsJust (c.text ++ " = 1".toList) (c.EndsOnVariable ∨ c.IsName) ∧
      dialect.AcceptsJust (x.chars ++ ", ".toList ++ c.text ++ " = 1, 2".toList)
        ((c.EndsOnVariable ∨ c.IsName) ∧ c.HeadIsVariable) :=
  ⟨acceptsJust_assignment dialect c, acceptsJust_assignments dialect x c⟩

/-- A field of what a bracket returns can be assigned to in the first place, and not after a
comma. -/
theorem called_bracket_refused_after_comma :
    (∃ least : Int, ∀ limit, least ≤ limit →
      (canonical.parser limit).Accepts (.ofString "(a)(b).c = 1" "cart")) ∧
    ∀ limit, ¬(canonical.parser limit).Accepts (.ofString "x, (a)(b).c = 1, 2" "cart") := by
  have hfield : Chain.EndsOnVariable ⟨true, .letter 'a' (by decide),
      [.call (.letter 'b' (by decide)), .field (.letter 'c' (by decide))]⟩ := ⟨_, rfl, rfl⟩
  have hhead : ¬Chain.HeadIsVariable ⟨true, .letter 'a' (by decide),
      [.call (.letter 'b' (by decide)), .field (.letter 'c' (by decide))]⟩ := by
    intro h
    obtain ⟨t, ht, hvariable⟩ := h rfl
    obtain rfl := Option.some.inj ht
    cases hvariable
  exact ⟨(acceptsJust_assignment canonical _ "cart").1 (.inl hfield),
    (acceptsJust_assignments canonical (.letter 'x' (by decide)) _ "cart").2
      fun h => hhead h.2⟩

end CartLua
