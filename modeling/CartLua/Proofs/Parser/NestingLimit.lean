import CartLua.Parser
import CartLua.Proofs.Matching.MoreDepth
import CartLua.Proofs.Matching.Observers

/-!
# The nesting limit only cuts

Two parsers of one grammar that differ in their limits do the same as long as the lower
limit suffices: they end alike, leave the same state, and take the same actions in the same
order.  No alternative, lookahead or loop takes a match that was stopped for depth for an
ordinary failure, so whoever raises the limit gets either the old result or a result where
there was none.
-/

namespace CartLua

variable {σ : Type}

/-- The observer that does what another one does, and writes down the match behind every
action it takes, the latest first. -/
def Observer.traced (observer : Observer σ) : Observer (σ × List Capture) where
  onMatch name := (observer.onMatch name).map fun act c kept => (act c kept.1, c :: kept.2)
  onReturn offset kept := (observer.onReturn offset kept.1, kept.2)

/-- Matches that end alike are both stopped for depth, or neither of them is. -/
theorem Outcome.Alike.tooDeep_iff {τ : Type} {x : Outcome σ} {y : Outcome τ} (h : x.Alike y) :
    x.verdict = .stopped .tooDeep ↔ y.verdict = .stopped .tooDeep := by
  cases h with
  | matched => simp
  | failed => simp
  | stopped hstop => cases hstop <;> simp

/-- Whether a match at a text ends in the error P003. -/
def Parser.IsTooDeep {α : Type} (result : Except Failure α × State σ) : Prop :=
  ∃ e : ParseError, result.1 = .error (.parse e) ∧ e.code = "P003"

namespace Parser

variable {p q : Parser} {observer : Observer σ} {start : σ} {rule : String} {source : Source}

/-- The error P003 stands for the stop for depth, and for no other. -/
theorem isTooDeep_iff :
    IsTooDeep (p.prefixLength observer start rule source) ↔
      (p.run observer start rule source).verdict = .stopped .tooDeep := by
  rw [prefixLength, IsTooDeep]
  rcases p.run observer start rule source with ⟨verdict, st⟩
  cases verdict with
  | matched => simp
  | failed => simp
  | stopped stop =>
      cases stop with
      | fault fault => cases fault <;> simp [failureOf, ParseError.ofFault, ParseError.code]
      | tooDeep => simp [failureOf, ParseError.code]
      | endless => simp [failureOf]
      | undefinedRule name => simp [failureOf]
      | unlinked name => simp [failureOf]

/-- Parsers of one grammar whose matches end alike have one result, unless the matches are
stopped for depth: only that error tells the limit. -/
theorem prefixLength_eq_of_run_eq (hgrammar : p.grammar = q.grammar)
    (hrun : q.run observer start rule source = p.run observer start rule source)
    (hends : (p.run observer start rule source).verdict ≠ .stopped .tooDeep) :
    q.prefixLength observer start rule source = p.prefixLength observer start rule source := by
  rw [prefixLength, prefixLength, hrun]
  generalize p.run observer start rule source = x at hends
  rcases x with ⟨verdict, st⟩
  cases verdict with
  | matched => rfl
  | failed => rfl
  | stopped stop =>
      cases stop with
      | fault fault => simp only [failureOf, hgrammar]
      | tooDeep => exact absurd rfl hends
      | endless => rfl
      | undefinedRule name => rfl
      | unlinked name => rfl

theorem depth_mono (hle : p.nestingLimit ≤ q.nestingLimit) : p.depth ≤ q.depth := by
  simp only [depth]
  omega

end Parser

open Matching in
/-- Let a rule be matched at the beginning of a text under two limits of active patterns.
If the lower one stops nothing, then under the higher one the match has the same outcome and
leaves the same state, what the actions keep included, and the same actions are taken in the
same order.  If the higher one stops the match, so does the lower one.  The same holds of the
results of two parsers of one grammar. -/
theorem limit_only_cuts (g : Grammar) (rule : String) (source : Source) (observer : Observer σ)
    (start : σ) {limit more : Nat} (hle : limit ≤ more) :
    ((run (g.setting source.text observer) limit (.rule rule) (.initial start)).verdict ≠
        .stopped .tooDeep →
      run (g.setting source.text observer) more (.rule rule) (.initial start) =
          run (g.setting source.text observer) limit (.rule rule) (.initial start) ∧
        run (g.setting source.text observer.traced) more (.rule rule) (.initial (start, [])) =
          run (g.setting source.text observer.traced) limit (.rule rule) (.initial (start, []))) ∧
    ((run (g.setting source.text observer) more (.rule rule) (.initial start)).verdict =
        .stopped .tooDeep →
      (run (g.setting source.text observer) limit (.rule rule) (.initial start)).verdict =
        .stopped .tooDeep) ∧
    ∀ p q : Parser, p.grammar = g → q.grammar = g → p.nestingLimit ≤ q.nestingLimit →
      (¬ Parser.IsTooDeep (p.prefixLength observer start rule source) →
        q.prefixLength observer start rule source = p.prefixLength observer start rule source) ∧
      (Parser.IsTooDeep (q.prefixLength observer start rule source) →
        Parser.IsTooDeep (p.prefixLength observer start rule source)) := by
  have htraced : (run (g.setting source.text observer) limit (.rule rule)
      (.initial start)).Alike (run (g.setting source.text observer.traced) limit (.rule rule)
        (.initial (start, []))) :=
    run_alike source.text g.rule? g.isLinked observer observer.traced limit (.rule rule)
      (.initial start) (.initial (start, [])) rfl
  refine ⟨fun hends => ⟨run_eq_of_le hends hle, run_eq_of_le ?_ hle⟩, fun hdeep => ?_, ?_⟩
  · exact fun hdeep => hends (htraced.tooDeep_iff.mpr hdeep)
  · refine Classical.byContradiction fun hends => hends ?_
    exact run_eq_of_le hends hle ▸ hdeep
  · rintro p q rfl hgrammar hlimit
    rw [Parser.isTooDeep_iff, Parser.isTooDeep_iff]
    have hrun (hends : (p.run observer start rule source).verdict ≠ .stopped .tooDeep) :
        q.run observer start rule source = p.run observer start rule source := by
      rw [Parser.run, hgrammar]
      exact run_eq_of_le hends (Parser.depth_mono hlimit)
    refine ⟨fun hends => Parser.prefixLength_eq_of_run_eq hgrammar.symm (hrun hends) hends, ?_⟩
    intro hdeep
    refine Classical.byContradiction fun hends => hends ?_
    exact hrun hends ▸ hdeep

namespace Grammar

/-- The setting of a grammar made of all its rules at once, without its indices. -/
theorem setting_ofRules (name root : String) (keywords : List String) (rules : List Rule)
    (text : Array Char) (observer : Observer σ) :
    (ofRules name root keywords rules).setting text observer =
      { text := text
        rule? := fun target => rules.find? fun rule => rule.name == target
        isLinked := fun site target =>
          (match site with
            | some site => decide (site < 0)
            | none => true) && (rules.find? fun rule => rule.name == target).isSome
        observer := observer } := by
  have hrule : (ofRules name root keywords rules).rule? =
      fun target => rules.find? fun rule => rule.name == target :=
    funext (ofRules name root keywords rules).rule?_eq_find?
  have hlinked (site : Site) (target : String) :
      (ofRules name root keywords rules).isLinked site target =
        ((match site with
          | some site => decide (site < 0)
          | none => true) && (rules.find? fun rule => rule.name == target).isSome) := by
    unfold isLinked
    rw [(ofRules name root keywords rules).linkedIndex_eq,
      Std.HashMap.contains_eq_isSome_getElem?, getElem?_ruleIndex]
    rfl
  rw [setting, hrule, funext fun site => funext (hlinked site)]

/-- A grammar of the letter `b`, whose root looks out for the letter `a` first. -/
def peek : Grammar :=
  ofRules "peek" "root" []
    [{ name := "root", body := .seq [.lookahead true (.ref none "letter"), .text "b"] },
      { name := "letter", body := .text "a" }]

end Grammar

/-- A limit of three strikes inside the lookahead of `peek`, which does not take that for the
absence of the letter; a limit of six lets `b` match, and a limit of nine changes nothing. -/
theorem limit_only_cuts_peek :
    (Matching.run (Grammar.peek.setting (Source.ofString "b" "cart").text (.idle Unit)) 3
        (.rule "root") (.initial ())).verdict = .stopped .tooDeep ∧
      (Matching.run (Grammar.peek.setting (Source.ofString "b" "cart").text (.idle Unit)) 6
        (.rule "root") (.initial ())).verdict = .matched ∧
      Matching.run (Grammar.peek.setting (Source.ofString "b" "cart").text (.idle Unit)) 9
          (.rule "root") (.initial ()) =
        Matching.run (Grammar.peek.setting (Source.ofString "b" "cart").text (.idle Unit)) 6
          (.rule "root") (.initial ()) := by
  have hdeep : (Matching.run (Grammar.peek.setting (Source.ofString "b" "cart").text
      (.idle Unit)) 3 (.rule "root") (.initial ())).verdict = .stopped .tooDeep := by
    rw [Grammar.peek, Grammar.setting_ofRules]
    decide
  have hmatched : (Matching.run (Grammar.peek.setting (Source.ofString "b" "cart").text
      (.idle Unit)) 6 (.rule "root") (.initial ())).verdict = .matched := by
    rw [Grammar.peek, Grammar.setting_ofRules]
    decide
  have hends : (Matching.run (Grammar.peek.setting (Source.ofString "b" "cart").text
      (.idle Unit)) 6 (.rule "root") (.initial ())).verdict ≠ .stopped .tooDeep := by
    rw [hmatched]
    exact Verdict.noConfusion
  exact ⟨hdeep, hmatched, ((limit_only_cuts Grammar.peek "root" (.ofString "b" "cart")
    (.idle Unit) () (by decide)).1 hends).1⟩

end CartLua
