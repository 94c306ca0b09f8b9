import CartLua.Proofs.Matching.Misses
import CartLua.Proofs.Parser.Completion

/-!
# What a rejection reports

A match that is rejected reports one place in the text and the rules around it, and both are read
off the list of its misses.  The report is placed at the furthest miss of a terminal, or at the
committed part that failed last if that lies further, and it names the rules around the first miss
there.

At the beginning of a text there is one gap in this.  A state starts out with its furthest failure
at offset zero and inside no rule, so a miss at offset zero is never further, and a report there
names no rule.
-/

namespace CartLua

variable {σ : Type}

namespace Matching

variable {setting : Setting σ}

/-! ## What is remembered -/

theorem kept_committed (body : State σ → Outcome σ) (description : Unit → String) (st : State σ) :
    (committed body description st).state.kept = (body st).state.kept := by
  rw [committed]
  rcases body st with ⟨verdict, last⟩
  cases verdict <;> rfl

theorem kept_lookahead (observer : Observer σ) (negated : Bool) (body : State σ → Outcome σ)
    (st : State σ) :
    (lookahead observer negated body st).state.kept = (body st.enterLookahead).state.kept := by
  rw [lookahead]
  rcases body st.enterLookahead with ⟨verdict, last⟩
  cases verdict <;> rfl

theorem kept_named (observer : Observer σ) (rule : Rule) (body : State σ → Outcome σ)
    (st : State σ) :
    (named observer rule body st).state.kept = (body (st.enter rule)).state.kept := by
  rw [named]
  rcases body (st.enter rule) with ⟨verdict, last⟩
  cases verdict with
  | matched => exact State.kept_announce _ observer rule st.offset
  | failed => rfl
  | stopped stop => rfl

/-- The misses that are remembered: none inside a lookahead. -/
def noted (st : State σ) (misses : List Miss) : List Miss :=
  if st.predicates = 0 then misses else []

/-- If each try remembers the furthest of its misses, so does what they are parts of. -/
theorem Leads.kept_eq {Fit : Pattern → Prop} {step : Pattern → State σ → Outcome σ}
    {missed : Pattern → State σ → List Miss} {origin st : State σ}
    {tried : List (Pattern × State σ)} {outcome : Outcome σ}
    (h : Leads Fit step origin st tried outcome)
    (hstep : ∀ q s, Fit q → origin.Around s → (step q s).state.kept =
      (noted origin (missed q s)).foldl (Miss.keep origin.ruleStack.reverse) s.kept) :
    outcome.state.kept = (noted origin (tried.flatMap fun t => missed t.1 t.2)).foldl
      (Miss.keep origin.ruleStack.reverse) st.kept := by
  have happend : ∀ before after, noted origin (before ++ after) =
      noted origin before ++ noted origin after := by
    intro before after
    rw [noted, noted, noted]
    split <;> rfl
  induction h with
  | done kept _ =>
      rw [List.flatMap_nil, noted, ite_self]
      exact kept
  | @stops st s last q stop fit around kept here =>
      have hlast := hstep q s fit around
      rw [here] at hlast
      rw [List.flatMap_singleton, ← kept, ← hlast]
  | @next st s next q verdict others outcome fit around kept here goesOn later ih =>
      have hnext := hstep q s fit around
      rw [here] at hnext
      rw [ih, List.flatMap_cons, happend, List.foldl_append, ← kept, ← hnext]

theorem mem_of_mem_noted {st : State σ} {misses : List Miss} {m : Miss}
    (h : m ∈ noted st misses) : m ∈ misses := by
  rw [noted] at h
  split at h
  · exact h
  · cases h

/-- A match remembers the furthest of its misses, if that lies further than what was remembered
before. -/
theorem kept_run (hrules : ∀ name rule, setting.rule? name = some rule → rule.body.SkipsLines)
    (depth : Nat) {p : Pattern} (hp : p.SkipsLines) (st : State σ) (hst : 0 ≤ st.predicates) :
    (run setting depth p st).state.kept =
      (noted st (misses setting depth p st)).foldl (Miss.keep st.ruleStack.reverse) st.kept := by
  induction depth generalizing p st with
  | zero =>
      rw [misses, noted, ite_self]
      rfl
  | succ depth ih =>
      by_cases hcomposite : p.isComposite = true
      · rw [misses_of_isComposite hcomposite]
        refine (leads_run hcomposite hp depth st).kept_eq fun q s hq haround => ?_
        have hkept := ih hq s (haround.predicates ▸ hst)
        rw [noted, haround.predicates, haround.ruleStack] at hkept
        exact hkept
      cases p with
      | terminal t =>
          simp only [run, terminal, misses]
          cases hscan : t.scan setting.text st.offset with
          | miss =>
              simp only [reduceIte, State.noteFailure, noted, Bool.and_eq_true, decide_eq_true_eq]
              by_cases hpredicates : st.predicates = 0
              · by_cases hfurther : st.furthest < st.offset <;>
                  simp [hpredicates, hfurther, State.kept, Miss.keep, Miss.isTerminal]
              · simp [hpredicates]
          | take count => simp [noted]
          | stay => simp [noted]
          | unclosed level => simp [noted]
      | must body =>
          have hbody := ih (hp.of_mem_parts List.mem_cons_self) st hst
          rw [run, kept_committed, hbody]
          simp only [misses, tries, List.flatMap_singleton, noted]
          split
          · rw [List.foldl_append]
            refine (Miss.foldl_keep_eq fun m hm hterminal => ?_).symm
            split at hm
            · rw [List.mem_singleton.mp hm] at hterminal
              cases hterminal
            · cases hm
          · rfl
      | lookahead negated body =>
          have hbody := ih (hp.of_mem_parts List.mem_cons_self) st.enterLookahead
            (Int.le_add_one hst)
          have hinside : st.enterLookahead.predicates ≠ 0 := by
            simp only [State.enterLookahead]
            omega
          rw [noted, if_neg hinside] at hbody
          rw [run, kept_lookahead, hbody]
          refine (Miss.foldl_keep_eq fun m hm hterminal => ?_).symm
          have hmem := mem_of_mem_noted hm
          simp only [misses, List.mem_filter, hterminal] at hmem
          exact absurd hmem.2 (by simp)
      | rule name =>
          simp only [run, misses, tries]
          cases hrule : setting.rule? name with
          | none => simp [noted]
          | some rule =>
              have hbody := ih (hrules name rule hrule) (st.enter rule) hst
              have houter : (st.enter rule).ruleStack.reverse =
                  st.ruleStack.reverse ++ [rule.name] := List.reverse_cons
              dsimp only
              rw [kept_named, hbody, houter, List.flatMap_singleton, ← Miss.keep_within,
                State.kept_enter, show noted (st.enter rule) = noted st from rfl, noted, noted]
              split
              · exact List.foldl_map.symm
              · rfl
      | _ => exact absurd rfl hcomposite

/-! ## What ends a match -/

/-- The report on a committed part that failed: it is placed at the furthest failure that is
remembered, unless the part lies further. -/
def report (outer : List String) (refused : Miss) (body : Pattern) (kept : Nat × List String) :
    Fault :=
  if refused.offset ≤ kept.1 then .mismatch (some body.describe) kept.1 kept.2
  else .mismatch (some body.describe) refused.offset (outer ++ refused.context)

/-- What the misses of a match say of its end: they are all of terminals, or the last one is that
of a committed part, which stops the match with the report on it. -/
inductive Accounts (outer : List String) : List Miss → Outcome σ → Prop
  | clean {misses : List Miss} {outcome : Outcome σ} (terminals : ∀ m ∈ misses, m.isTerminal = true)
      (other : ∀ expected offset context,
        outcome.verdict ≠ .stopped (.fault (.mismatch expected offset context))) :
      Accounts outer misses outcome
  | refused {misses : List Miss} {m : Miss} {body : Pattern} {last : State σ}
      (terminals : ∀ m ∈ misses, m.isTerminal = true) (pattern_eq : m.pattern = .must body) :
      Accounts outer (misses ++ [m]) ⟨.stopped (.fault (report outer m body last.kept)), last⟩

/-- A report outside every rule, read off the misses before the committed part. -/
theorem report_foldl_keep {before : List Miss} (hbefore : ∀ m ∈ before, m.isTerminal = true)
    (refused : Miss) (body : Pattern) :
    ∃ context, report [] refused body (before.foldl (Miss.keep []) (0, [])) =
        .mismatch (some body.describe) (max refused.offset (Miss.furthest before)) context ∧
      (Miss.furthest before < refused.offset → context = refused.context) ∧
      ∀ m, Miss.IsFirstFurthest before m → refused.offset ≤ m.offset →
        context = if m.offset = 0 then [] else m.context := by
  have hkept : ∀ m, Miss.IsFirstFurthest before m → before.foldl (Miss.keep []) (0, []) =
      (Miss.furthest before, if m.offset = 0 then [] else m.context) := by
    intro m hm
    rw [hm.foldl_keep hbefore, hm.furthest_eq]
    split
    next hzero => rw [hzero]
    next => rfl
  have hfurthest : (before.foldl (Miss.keep []) (0, [])).1 = Miss.furthest before := by
    by_cases hnil : before = []
    · rw [hnil]
      rfl
    · obtain ⟨m, hm⟩ := Miss.exists_isFirstFurthest hnil
      rw [hkept m hm]
  rw [report, hfurthest]
  split
  next hle =>
    refine ⟨_, by rw [Nat.max_eq_right hle], fun hlt => absurd hlt (Nat.not_lt.mpr hle), ?_⟩
    exact fun m hm _ => congrArg Prod.snd (hkept m hm)
  next hlt =>
    have hlt := Nat.lt_of_not_le hlt
    refine ⟨_, by rw [Nat.max_eq_left (Nat.le_of_lt hlt)]; rfl, fun _ => rfl, fun m hm hle => ?_⟩
    exact absurd (hm.furthest_eq ▸ hle) (Nat.not_le.mpr hlt)

namespace Accounts

variable {outer : List String} {before : List Miss} {verdict : Verdict} {st last : State σ}

/-- All misses are of terminals if the match goes on. -/
theorem terminals (h : Accounts outer before ⟨verdict, last⟩)
    (hgoesOn : ∀ stop, verdict ≠ .stopped stop) : ∀ m ∈ before, m.isTerminal = true := by
  cases h with
  | clean terminals _ => exact terminals
  | refused _ _ => exact absurd rfl (hgoesOn _)

/-- Only what is remembered counts of the state in which a match stops. -/
theorem of_kept {stop : Stop} (h : Accounts outer before ⟨.stopped stop, last⟩)
    (hkept : st.kept = last.kept) : Accounts outer before ⟨.stopped stop, st⟩ := by
  cases h with
  | clean terminals other => exact .clean terminals other
  | refused terminals pattern_eq => exact hkept ▸ .refused terminals pattern_eq

/-- A match whose terminals are not counted. -/
theorem filter (h : Accounts outer before ⟨verdict, last⟩) :
    Accounts outer (before.filter fun m => !m.isTerminal) ⟨verdict, last⟩ := by
  have hnone : ∀ {misses : List Miss}, (∀ m ∈ misses, m.isTerminal = true) →
      misses.filter (fun m => !m.isTerminal) = [] := by
    intro misses hterminals
    simpa using hterminals
  cases h with
  | clean terminals other => exact hnone terminals ▸ .clean nofun other
  | @refused misses m body last terminals pattern_eq =>
      have hm : m.isTerminal = false := by rw [Miss.isTerminal, pattern_eq]
      rw [List.filter_append, hnone terminals]
      have hrefused : Accounts outer ([] ++ [m])
          ⟨.stopped (.fault (report outer m body last.kept)), last⟩ := .refused nofun pattern_eq
      simpa [hm] using hrefused

/-- A match inside a rule. -/
theorem within {rule : Rule} (h : Accounts (outer ++ [rule.name]) before ⟨verdict, last⟩) :
    Accounts outer (before.map (Miss.within rule.name)) ⟨verdict, last⟩ := by
  have hmap : ∀ {misses : List Miss}, (∀ m ∈ misses, m.isTerminal = true) →
      ∀ m ∈ misses.map (Miss.within rule.name), m.isTerminal = true := by
    intro misses hterminals
    simpa using hterminals
  cases h with
  | clean terminals other => exact .clean (hmap terminals) other
  | @refused misses m body last terminals pattern_eq =>
      have hreport : report (outer ++ [rule.name]) m body last.kept =
          report outer (m.within rule.name) body last.kept := by
        simp only [report, Miss.within, List.append_assoc, List.singleton_append]
        rfl
      rw [List.map_append, List.map_singleton, hreport]
      exact .refused (hmap terminals) pattern_eq

end Accounts

/-- If the misses of each try account for it, so do all of them for what they are parts of. -/
theorem Leads.accounts {Fit : Pattern → Prop} {step : Pattern → State σ → Outcome σ}
    {missed : Pattern → State σ → List Miss} {outer : List String} {origin st : State σ}
    {tried : List (Pattern × State σ)} {outcome : Outcome σ}
    (h : Leads Fit step origin st tried outcome)
    (hstep : ∀ q s, Fit q → origin.Around s → Accounts outer (missed q s) (step q s)) :
    Accounts outer (tried.flatMap fun t => missed t.1 t.2) outcome := by
  induction h with
  | done _ clean => exact .clean (by simp) fun _ _ _ => clean _
  | @stops st s last q stop fit around kept here =>
      rw [List.flatMap_singleton, ← here]
      exact hstep q s fit around
  | @next st s next q verdict others outcome fit around kept here goesOn later ih =>
      have hfirst := hstep q s fit around
      rw [here] at hfirst
      have hterminals := hfirst.terminals goesOn
      rw [List.flatMap_cons]
      generalize (others.flatMap fun t => missed t.1 t.2) = rest at ih
      cases ih with
      | clean terminals other =>
          exact .clean (fun m hm => (List.mem_append.mp hm).elim (hterminals m) (terminals m)) other
      | refused terminals pattern_eq =>
          rw [← List.append_assoc]
          exact .refused (fun m hm => (List.mem_append.mp hm).elim (hterminals m) (terminals m))
            pattern_eq

/-- The misses of a match account for its end. -/
theorem accounts_run (hrules : ∀ name rule, setting.rule? name = some rule → rule.body.SkipsLines)
    (depth : Nat) {p : Pattern} (hp : p.SkipsLines) (st : State σ) :
    Accounts st.ruleStack.reverse (misses setting depth p st) (run setting depth p st) := by
  induction depth generalizing p st with
  | zero => exact .clean (by simp [misses]) (by rintro _ _ _ ⟨⟩)
  | succ depth ih =>
      by_cases hcomposite : p.isComposite = true
      · rw [misses_of_isComposite hcomposite]
        refine (leads_run hcomposite hp depth st).accounts fun q s hq haround => ?_
        exact haround.ruleStack ▸ ih hq s
      cases p with
      | terminal t =>
          refine .clean (fun m hm => ?_) fun _ _ _ => ?_
          · simp only [misses] at hm
            split at hm
            · rw [List.mem_singleton.mp hm]
              rfl
            · cases hm
          · simp only [run, terminal]
            cases t.scan setting.text st.offset <;> simp [State.unclosedBracket]
      | must body =>
          have hbody := ih (hp.of_mem_parts List.mem_cons_self) st
          have hframes := framing_run setting depth body st
          simp only [misses, run, tries, committed, List.flatMap_singleton]
          rcases hhere : run setting depth body st with ⟨verdict, last⟩
          rw [hhere] at hbody hframes
          cases hframes with
          | matched _ _ => simpa using hbody
          | stopped stop _ => simpa using hbody
          | failed around offset_eq _ =>
              have hterminals := hbody.terminals (by simp)
              have hreport : last.mismatch (some body.describe) =
                  report st.ruleStack.reverse ⟨.must body, st.offset, []⟩ body last.kept := by
                simp [State.mismatch, report, offset_eq, around.ruleStack, State.kept]
              simp only [reduceIte, hreport]
              exact .refused hterminals rfl
      | lookahead negated body =>
          have hbody := ih (hp.of_mem_parts List.mem_cons_self) st.enterLookahead
          simp only [misses, run, tries, lookahead, List.flatMap_singleton]
          rcases hhere : run setting depth body st.enterLookahead with ⟨verdict, last⟩
          rw [hhere] at hbody
          have hfilter := hbody.filter
          cases verdict with
          | matched =>
              refine .clean ?_ (by cases negated <;> simp)
              exact hfilter.terminals (by simp)
          | failed =>
              refine .clean ?_ (by cases negated <;> simp)
              exact hfilter.terminals (by simp)
          | stopped stop => exact hfilter.of_kept rfl
      | rule name =>
          simp only [misses, run, tries]
          cases hrule : setting.rule? name with
          | none => exact .clean (by simp) (by simp)
          | some rule =>
              have hbody := ih (hrules name rule hrule) (st.enter rule)
              have houter : (st.enter rule).ruleStack.reverse =
                  st.ruleStack.reverse ++ [rule.name] := List.reverse_cons
              simp only [named, List.flatMap_singleton]
              rw [houter] at hbody
              rcases hhere : run setting depth rule.body (st.enter rule) with ⟨verdict, last⟩
              rw [hhere] at hbody
              have hwithin := hbody.within
              cases verdict with
              | matched => exact .clean (hwithin.terminals (by simp)) (by simp)
              | failed => exact .clean (hwithin.terminals (by simp)) (by simp)
              | stopped stop => exact hwithin.of_kept rfl
      | _ => exact absurd rfl hcomposite

/-- The misses of a rule begin their context with it. -/
theorem head?_context_of_mem_misses {depth : Nat} {name : String} {rule : Rule}
    (hrule : setting.rule? name = some rule) {st : State σ} {m : Miss}
    (hm : m ∈ misses setting depth (.rule name) st) : m.context.head? = some rule.name := by
  cases depth with
  | zero => cases hm
  | succ depth =>
      simp only [misses, hrule] at hm
      obtain ⟨inner, -, rfl⟩ := List.mem_map.mp hm
      rfl

end Matching

/-! ## The report of a parse -/

namespace Dialect

variable {dialect : Dialect}

theorem skipsLine_rules (dialect : Dialect) :
    (dialect.rules.all fun rule => rule.body.subpatterns.all Pattern.skipsLine) = true := by
  cases dialect <;> decide +kernel

theorem skipsLines_of_rule? {name : String} {rule : Rule}
    (hrule : dialect.grammar.rule? name = some rule) : rule.body.SkipsLines := by
  have hmem := Grammar.mem_of_rule? hrule
  rw [rules_grammar] at hmem
  exact List.all_eq_true.mp (List.all_eq_true.mp (skipsLine_rules dialect) rule hmem)

theorem skipsLines_root : (Pattern.rule rootName).SkipsLines := by
  intro q hq
  rcases Pattern.mem_subpatterns.mp hq with rfl | ⟨part, hpart, -⟩
  · rfl
  · cases hpart

theorem mem_program : program ∈ dialect.rules := by simp [rules, definitionRules]

end Dialect

namespace Matching

variable {setting : Setting σ}

theorem not_failed_must (depth : Nat) (body : Pattern) (st : State σ) :
    (run setting depth (.must body) st).verdict ≠ .failed := by
  cases depth with
  | zero => rintro ⟨⟩
  | succ depth =>
      simp only [run, committed]
      rcases run setting depth body st with ⟨verdict, last⟩
      cases verdict <;> simp

/-- Committed parts in a row do not just fail. -/
theorem not_failed_seq_must (depth : Nat) (items : List Pattern) (st : State σ) :
    (run setting depth (.seq (items.map .must)) st).verdict ≠ .failed := by
  cases depth with
  | zero => rintro ⟨⟩
  | succ depth =>
      suffices h : ∀ origin st : State σ, (sequence setting.observer (run setting depth) origin
          (items.map .must) st).verdict ≠ .failed from h st st
      intro origin st
      induction items generalizing st with
      | nil => rintro ⟨⟩
      | cons item items ih =>
          have hitem : (run setting depth (.must item) st).verdict ≠ .failed :=
            not_failed_must depth item st
          rw [List.map_cons, sequence]
          generalize run setting depth (.must item) st = outcome at hitem
          rcases outcome with ⟨verdict, last⟩
          cases verdict with
          | matched => exact ih last
          | failed => exact absurd rfl hitem
          | stopped stop => simp

end Matching

namespace Dialect

variable {dialect : Dialect}

/-- All parts of a program are committed, so matching it does not just fail. -/
theorem not_failed_root (dialect : Dialect) (text : Array Char) (observer : Observer σ)
    (depth : Nat) (st : State σ) :
    (Matching.run (dialect.grammar.setting text observer) depth (.rule rootName) st).verdict ≠
      .failed := by
  have hrule : dialect.grammar.rule? rootName = some program := rule?_grammar mem_program
  cases depth with
  | zero => rintro ⟨⟩
  | succ depth =>
      have hbody : (Matching.run (dialect.grammar.setting text observer) depth program.body
          (st.enter program)).verdict ≠ .failed :=
        Matching.not_failed_seq_must depth
          [.optional [.call "interpreter"], statementList .endOfInput] (st.enter program)
      rw [Grammar.setting] at hbody ⊢
      simp only [Matching.run, hrule, Matching.named]
      generalize Matching.run _ depth program.body (st.enter program) = outcome at hbody
      rcases outcome with ⟨verdict, last⟩
      cases verdict with
      | matched => simp
      | failed => exact absurd rfl hbody
      | stopped stop => simp

theorem run_root (dialect : Dialect) (limit : Int) (observer : Observer σ) (start : σ)
    (source : Source) :
    (dialect.parser limit).run observer start (dialect.parser limit).grammar.root source =
      Matching.run (dialect.grammar.setting source.text observer) (dialect.parser limit).depth
        (.rule rootName) (State.initial start) := by
  rw [← root_grammar dialect]
  rfl

/-- A parse whose match stops for a committed part is rejected with a report on it. -/
theorem rejected_of_verdict {limit : Int} {observer : Observer σ} {start : σ} {source : Source}
    {fault : Fault}
    (h : (Matching.run (dialect.grammar.setting source.text observer) (dialect.parser limit).depth
      (.rule rootName) (State.initial start)).verdict = .stopped (.fault fault)) :
    ((dialect.parser limit).parse observer start source).1 =
      .error (.parse (.ofFault source dialect.grammar.keywords fault)) := by
  rw [Parser.parse, Parser.prefixLength, run_root]
  generalize Matching.run (dialect.grammar.setting source.text observer)
    (dialect.parser limit).depth (.rule rootName) (State.initial start) = outcome at h ⊢
  rcases outcome with ⟨verdict, last⟩
  obtain rfl : verdict = .stopped (.fault fault) := h
  rfl

/-- A parse ends with a syntax error only if a committed part of the match failed. -/
theorem stopped_of_rejected {limit : Int} {observer : Observer σ} {start : σ}
    {source : Source} {e : ParseError}
    (hparse : ((dialect.parser limit).parse observer start source).1 = .error (.parse e))
    (hcode : e.code = "P001") :
    ∃ expected offset context last,
      Matching.run (dialect.grammar.setting source.text observer) (dialect.parser limit).depth
        (.rule rootName) (State.initial start) =
          ⟨.stopped (.fault (.mismatch expected offset context)), last⟩ ∧
      e = .ofFault source dialect.grammar.keywords (.mismatch expected offset context) := by
  have hfails := not_failed_root dialect source.text observer (dialect.parser limit).depth
    (State.initial start)
  rw [Parser.parse, Parser.prefixLength, run_root] at hparse
  generalize Matching.run (dialect.grammar.setting source.text observer)
    (dialect.parser limit).depth (.rule rootName) (State.initial start) = outcome at hparse hfails ⊢
  rcases outcome with ⟨verdict, last⟩
  cases verdict with
  | matched => cases hparse
  | failed => exact absurd rfl hfails
  | stopped stop =>
      cases stop with
      | fault fault =>
          cases fault with
          | mismatch expected offset context =>
              cases hparse
              exact ⟨expected, offset, context, last, rfl, rfl⟩
          | unclosedBracket level offset context =>
              cases hparse
              exact absurd (show "P002" = "P001" from hcode) (by simp)
      | tooDeep =>
          cases hparse
          exact absurd (show "P003" = "P001" from hcode) (by simp)
      | endless => cases hparse
      | undefinedRule name => cases hparse
      | unlinked name => cases hparse

/-- The misses of a parse. -/
def misses (dialect : Dialect) (limit : Int) (observer : Observer σ) (start : σ)
    (source : Source) : List Miss :=
  Matching.misses (dialect.grammar.setting source.text observer) (dialect.parser limit).depth
    (.rule rootName) (State.initial start)

end Dialect

open Dialect

/-- A parse that ends with a syntax error has missed terminals and then, last of all, a committed
part.  The error names that part.  It lies where the furthest of the misses is, and around it are
the rules around the first one there: those around the committed part if it lies further than
every terminal, and else those around the first terminal missed at the furthest offset.  All of
these begin with the rule of a program.  Only a furthest miss at the very beginning of the text
is reported with no rule around it. -/
theorem rejection_reports_furthest {σ : Type} (dialect : Dialect) (limit : Int)
    (observer : Observer σ) (start : σ) (source : Source) (e : ParseError)
    (hparse : ((dialect.parser limit).parse observer start source).1 = .error (.parse e))
    (hcode : e.code = "P001") :
    ∃ before last body, dialect.misses limit observer start source = before ++ [last] ∧
      (∀ m ∈ before, m.isTerminal = true) ∧ last.pattern = .must body ∧
      e.rule = some body.describe ∧
      e.location = source.location (max last.offset (Miss.furthest before) : Nat) ∧
      (Miss.furthest before < last.offset → e.context = last.context) ∧
      (∀ m, Miss.IsFirstFurthest before m → last.offset ≤ m.offset →
        e.context = if m.offset = 0 then [] else m.context) ∧
      ∀ m ∈ before ++ [last], m.context.head? = some rootName := by
  obtain ⟨expected, offset, context, last, hrun, rfl⟩ := stopped_of_rejected hparse hcode
  have hrules : ∀ name rule, (dialect.grammar.setting source.text observer).rule? name = some rule →
      rule.body.SkipsLines := fun _ _ => skipsLines_of_rule?
  have haccounts := Matching.accounts_run hrules (dialect.parser limit).depth skipsLines_root
    (State.initial start)
  have hkept := Matching.kept_run hrules (dialect.parser limit).depth skipsLines_root
    (State.initial start) (Int.le_refl 0)
  have hhead : ∀ m ∈ dialect.misses limit observer start source,
      m.context.head? = some rootName := fun m hm =>
    Matching.head?_context_of_mem_misses (rule?_grammar mem_program) hm
  rw [hrun] at haccounts hkept
  change Matching.Accounts [] (dialect.misses limit observer start source) _ at haccounts
  change last.kept = (dialect.misses limit observer start source).foldl (Miss.keep []) (0, [])
    at hkept
  obtain ⟨fault, hfault⟩ : ∃ fault, fault = Fault.mismatch expected offset context := ⟨_, rfl⟩
  rw [← hfault] at haccounts
  generalize dialect.misses limit observer start source = misses at haccounts hkept hhead
  cases haccounts with
  | clean _ other => exact absurd (by rw [hfault]) (other expected offset context)
  | @refused before m body _ terminals pattern_eq =>
      have hm : Miss.keep [] (before.foldl (Miss.keep []) (0, [])) m =
          before.foldl (Miss.keep []) (0, []) := by
        refine if_neg fun hfurther => ?_
        rw [Miss.isTerminal, pattern_eq] at hfurther
        cases hfurther.1
      rw [List.foldl_append, List.foldl_cons, List.foldl_nil, hm] at hkept
      obtain ⟨around, hreport, hrefused, hfirst⟩ :=
        Matching.report_foldl_keep terminals m body
      rw [hkept, hreport] at hfault
      obtain ⟨rfl, rfl, rfl⟩ := Fault.mismatch.inj hfault
      exact ⟨before, m, body, rfl, terminals, pattern_eq, rfl, rfl, hrefused, hfirst, hhead⟩

/-- A value is missing. -/
theorem rejection_reports_furthest_value : ∃ e,
    ((canonical.parser 0).parse (Observer.idle Unit) () (.ofString "x=" "cart")).1 =
        .error (.parse e) ∧
      e.code = "P001" ∧
      ∃ before last body,
        canonical.misses 0 (Observer.idle Unit) () (.ofString "x=" "cart") =
            before ++ [last] ∧
          (∀ m ∈ before, m.isTerminal = true) ∧ last.pattern = .must body ∧
          e.rule = some body.describe ∧
          e.location = (Source.ofString "x=" "cart").location
            (max last.offset (Miss.furthest before) : Nat) ∧
          (Miss.furthest before < last.offset → e.context = last.context) ∧
          (∀ m, Miss.IsFirstFurthest before m → last.offset ≤ m.offset →
            e.context = if m.offset = 0 then [] else m.context) ∧
          ∀ m ∈ before ++ [last], m.context.head? = some rootName := by
  have hverdict : (Matching.run (canonical.grammar.setting
      (Source.ofString "x=" "cart").text (Observer.idle Unit)) (canonical.parser 0).depth
      (.rule rootName) (State.initial ())).verdict =
        .stopped (.fault (.mismatch (some "expr_list_must") 2
          ["grammar", "statement", "chain_statement", "variable_continuation", "assignments",
            "assignments_one", "seps", "sep"])) := by
    rw [setting_eq]
    decide +kernel
  have hparse := rejected_of_verdict hverdict
  exact ⟨_, hparse, rfl, rejection_reports_furthest .canonical 0 _ () _ _ hparse rfl⟩

/-- A text that begins with what nothing can begin with.  The first terminal that is missed at
the furthest offset is the mark of an interpreter, and no rule is reported around it. -/
theorem rejection_at_beginning_names_no_rule : ∃ before first last e,
    canonical.misses 0 (Observer.idle Unit) () (.ofString ")" "cart") = before ++ [last] ∧
      Miss.IsFirstFurthest before first ∧ last.offset ≤ first.offset ∧
      first.context = ["grammar", "interpreter"] ∧
      ((canonical.parser 0).parse (Observer.idle Unit) () (.ofString ")" "cart")).1 =
        .error (.parse e) ∧
      e.code = "P001" ∧ e.context = [] := by
  have hverdict : (Matching.run (canonical.grammar.setting
      (Source.ofString ")" "cart").text (Observer.idle Unit)) (canonical.parser 0).depth
      (.rule rootName) (State.initial ())).verdict =
        .stopped (.fault (.mismatch (some (statementList .endOfInput).describe) 0 [])) := by
    rw [setting_eq]
    decide +kernel
  have hmisses : ∃ misses, canonical.misses 0 (Observer.idle Unit) () (.ofString ")" "cart") =
        misses ∧
      (∀ m ∈ misses, m.offset = 0) ∧ 1 < misses.length ∧
      misses.head?.map Miss.context = some ["grammar", "interpreter"] := by
    refine ⟨_, rfl, ?_⟩
    rw [Dialect.misses, setting_eq]
    decide +kernel
  obtain ⟨misses, hmisses, hoffsets, hlength, hhead⟩ := hmisses
  match misses with
  | [] => cases hhead
  | first :: others =>
      have hothers : others ≠ [] := by
        rintro rfl
        exact absurd hlength (by simp)
      have hzero : first.offset = 0 := hoffsets first List.mem_cons_self
      have hsplit : first :: others = (first :: others.dropLast) ++ [others.getLast hothers] := by
        rw [List.cons_append, List.dropLast_concat_getLast hothers]
      refine ⟨first :: others.dropLast, first, others.getLast hothers, _, hmisses.trans hsplit,
        ⟨[], others.dropLast, rfl, nofun, fun x hx => ?_⟩, ?_, Option.some.inj hhead,
        rejected_of_verdict hverdict, rfl, rfl⟩
      · have hx := hoffsets x (List.mem_cons_of_mem _ (List.dropLast_subset _ hx))
        exact Nat.le_of_eq (hx.trans hzero.symm)
      · have hlast := hoffsets _ (List.mem_cons_of_mem _ (List.getLast_mem hothers))
        exact Nat.le_of_eq (hlast.trans hzero.symm)

end CartLua
