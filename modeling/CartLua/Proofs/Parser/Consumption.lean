import CartLua.Proofs.Derivation.Composition
import CartLua.Proofs.Grammar.SelfCheck
import CartLua.Proofs.Lexical.CaseFolding
import CartLua.Proofs.Matching.StateRelations

/-!
# How much of a text is consumed

A match goes through states whose cursor is in the text, as long as every terminal takes only
what is there.  All of them do but one: a literal in any case is compared with what is left, and
when the two agree the cursor moves on by the length of the literal, which is more than there is
where a single `İ` stands for an `i` and a combining dot.
-/

namespace CartLua

open Matching

variable {σ : Type}

namespace Terminal

/-- Whether no `i` stands right before a combining dot in a literal in any case. -/
def undotted : Terminal → Bool
  | literal cs true => !Text.dotted cs
  | _ => true

theorem Bounded.of_undotted {t : Terminal} (ht : t.undotted = true) : t.Bounded := by
  cases t with
  | literal cs anyCase =>
      cases anyCase with
      | false => trivial
      | true => exact bounded_literal_iff.mpr (by simpa [undotted] using ht)
  | _ => trivial

/-- A literal in any case takes more than there is at the end of some text just when an `i` stands
right before a combining dot in it. -/
theorem literal_passes_end_iff {cs : List Char} :
    (∃ (text : Array Char) (offset : Nat), offset ≤ text.size ∧
        (literal cs true).scan text offset = .take cs.length ∧ text.size < offset + cs.length) ↔
      Text.dotted cs = true := by
  constructor
  · rintro ⟨text, offset, hoffset, htake, hpast⟩
    cases hdotted : Text.dotted cs with
    | true => rfl
    | false =>
        have hsize := scan_take_le (bounded_literal_iff.mpr hdotted) hoffset htake
        omega
  · intro hdotted
    obtain ⟨t, hlower, hlength⟩ := Text.exists_shorter hdotted
    refine ⟨t.toArray, 0, Nat.zero_le _, ?_, by simp; omega⟩
    have hextract : (t.toArray.extract 0 (0 + cs.length)).toList = t := by
      have hle : t.length ≤ cs.length := by omega
      simp [List.take_of_length_le hle]
    rw [scan, hextract, if_pos hlower]

end Terminal

/-- Whether no literal in any case of a grammar holds an `i` right before a combining dot. -/
def Grammar.Undotted (g : Grammar) : Prop :=
  ∀ rule ∈ g.rules, rule.body.terminalsAll Terminal.undotted = true

instance (g : Grammar) : Decidable g.Undotted :=
  inferInstanceAs (Decidable (∀ rule ∈ g.rules, _))

namespace Grammar

variable {g : Grammar}

/-- What a pattern without such literals makes use of has none either. -/
theorem Undotted.uses (hg : g.Undotted) {text : Array Char} {observer : Observer σ} {p q : Pattern}
    (hp : p.terminalsAll Terminal.undotted = true) (h : Uses (g.setting text observer) p q) :
    q.terminalsAll Terminal.undotted = true := by
  cases h with
  | part mem => exact Pattern.terminalsAll_of_mem_parts hp mem
  | body found => exact hg _ (mem_of_rule? found)
  | target _ => rfl

/-- No move leads out of the text. -/
theorem Undotted.moves (hg : g.Undotted) (text : Array Char) (observer : Observer σ) :
    Moves (g.setting text observer) (fun p => p.terminalsAll Terminal.undotted = true)
      (fun a b : State σ => a.offset ≤ text.size → b.offset ≤ text.size) where
  uses := hg.uses
  refl _ := id
  trans hab hbc := hbc ∘ hab
  terminal {t} hp st hst := by
    have hbounded := Terminal.Bounded.of_undotted (Pattern.terminalsAll_of_terminal hp)
    rw [Matching.terminal]
    cases hscan : t.scan (g.setting text observer).text st.offset with
    | take count => exact Terminal.scan_take_le hbounded hst hscan
    | stay => exact hst
    | miss => exact st.offset_noteFailure.symm ▸ hst
    | unclosed level => exact hst
  pass hlt _ := hlt
  noteFailure st hst := st.offset_noteFailure.symm ▸ hst
  returnTo _ := id
  leave h := h
  leaveLookahead h := h
  announce {_ rule} _ _ st begin hst := (st.offset_announce observer rule begin).symm ▸ hst

/-- Wherever a match on the way begins, the cursor is in the text. -/
theorem Undotted.invariant (hg : g.Undotted) (text : Array Char) (observer : Observer σ) :
    Invariant (g.setting text observer) (fun p => p.terminalsAll Terminal.undotted = true)
      (fun st => st.offset ≤ text.size) where
  uses := hg.uses
  enter _ hst := hst
  enterLookahead hst := hst
  returnTo horigin _ _ := horigin
  advance _ hlt := hlt
  matched {depth p st last} hp hst hrun := by
    have hlast := (hg.moves text observer).run depth hp st hst
    rwa [hrun] at hlast
  failed {depth p st last} hp hst hrun := by
    have hlast := (hg.moves text observer).run depth hp st hst
    rwa [hrun] at hlast

end Grammar

/-- Unless a literal in any case holds an `i` right before a combining dot, what a rule takes is in
the text, every state that its match goes through has its cursor there, and where such a literal
matches there are as many characters left as it has. -/
theorem consumption_stays_inside {p : Parser} (hplain : p.grammar.Undotted)
    (observer : Observer σ) (start : σ) (name : String) (source : Source) :
    (∀ count, (p.prefixLength observer start name source).1 = .ok (some count) →
        count ≤ source.length) ∧
      (∀ st, Passes (p.grammar.setting source.text observer) p.depth (.rule name)
        (.initial start) st → st.offset ≤ source.length) ∧
      ∀ rule ∈ p.grammar.rules, ∀ cs, .terminal (.literal cs true) ∈ rule.body.subpatterns →
        ∀ offset count, offset ≤ source.length →
          (Terminal.literal cs true).scan source.text offset = .take count →
          offset + cs.length ≤ source.length := by
  have hmoves := hplain.moves source.text observer
  have hname : (Pattern.rule name).terminalsAll Terminal.undotted = true := rfl
  refine ⟨fun count hcount => ?_, ?_, fun rule hrule cs hcs offset count hoffset htake => ?_⟩
  · have hlast := hmoves.run p.depth hname (.initial start) (Nat.zero_le _)
    change (p.run observer start name source).state.offset ≤ source.length at hlast
    rw [Parser.prefixLength] at hcount
    rcases hrun : p.run observer start name source with ⟨verdict, last⟩
    rw [hrun] at hlast hcount
    cases verdict with
    | matched =>
        cases hcount
        exact hlast
    | failed => cases hcount
    | stopped stop => cases hcount
  · rintro st ⟨below, q, t, hduring, rfl | rfl⟩
    · exact ((hplain.invariant source.text observer).of_during hduring hname (Nat.zero_le _)).2
    · obtain ⟨hq, ht⟩ :=
        (hplain.invariant source.text observer).of_during hduring hname (Nat.zero_le _)
      exact hmoves.run below hq t ht
  · have hundotted := List.all_eq_true.mp (hplain rule hrule) _ hcs
    have hbounded := Terminal.Bounded.of_undotted hundotted
    have hsize := Terminal.scan_take_le hbounded hoffset htake
    have hcount : count = cs.length := by
      rw [Terminal.scan] at htake
      split at htake
      · exact (Scan.take.inj htake).symm
      · cases htake
    rwa [hcount] at hsize

namespace Dialect

/-- The only literal in any case of the dialects is the mark of hexadecimal numerals. -/
theorem undotted_grammar (dialect : Dialect) : dialect.grammar.Undotted := by
  have hall : ∀ rule ∈ dialect.rules, rule.body.terminalsAll Terminal.undotted = true := by
    cases dialect <;> decide +kernel
  exact fun rule hrule => hall rule (rules_grammar dialect ▸ hrule)

end Dialect

/-- The mark of a hexadecimal numeral in capitals is matched as far as it goes. -/
theorem consumption_stays_inside_mark :
    (Dialect.pico8.parser usualNestingLimit).grammar.Undotted ∧
      ∀ count, ((Dialect.pico8.parser usualNestingLimit).prefixLength (Observer.idle Unit) ()
        "hexadecimal" (Source.ofChars ['0', 'X', 'F'] "cart")).1 = .ok (some count) → count ≤ 3 :=
  ⟨Dialect.undotted_grammar .pico8,
    (consumption_stays_inside (Dialect.undotted_grammar .pico8 :
      (Dialect.pico8.parser usualNestingLimit).grammar.Undotted) (Observer.idle Unit) ()
      "hexadecimal" (Source.ofChars ['0', 'X', 'F'] "cart")).1⟩

namespace Grammar

/-- The rule of an `i` with a combining dot, in any case. -/
def dottedRule : Rule where
  name := "root"
  body := .terminal (.literal ['i', '\u0307'] true)

/-- A grammar of this one rule. -/
def dottedLetter : Grammar := ofRules "letter" "root" [] [dottedRule]

theorem flaws_dottedLetter : dottedLetter.analyze.flaws = [] := by
  rw [flaws_eq_nil_iff]
  unfold undefinedReferences unreachableRules leftCycles reachable leftCalls mentionsOf
  simp only [defines_eq, rule?_eq]
  decide

end Grammar

/-- A literal may take more than there is: the one character `İ` is matched as two. -/
theorem literal_may_pass_end :
    ∃ p, Parser.ofGrammar Grammar.dottedLetter usualNestingLimit = .ok p ∧
      (Source.ofChars ['İ'] "cart").length = 1 ∧
      (p.prefixLength (Observer.idle Unit) () "root" (Source.ofChars ['İ'] "cart")).1 =
        .ok (some 2) := by
  have hclean : Grammar.dottedLetter.analyze.hasErrors = false := by
    simp [GrammarReport.hasErrors, Grammar.flaws_dottedLetter]
  have hcheck : Grammar.dottedLetter.check =
      .ok ⟨{ Grammar.dottedLetter with checked := true }, rfl⟩ := by
    rw [Grammar.check]
    simp only [hclean]
    rfl
  refine ⟨⟨{ Grammar.dottedLetter with checked := true }, usualNestingLimit, rfl⟩, ?_, rfl, ?_⟩
  · have hunchecked : Grammar.dottedLetter.checked ≠ true := by decide
    rw [Parser.ofGrammar, dif_neg hunchecked, hcheck]
  · have hrule : Grammar.rule? { Grammar.dottedLetter with checked := true } "root" =
        some Grammar.dottedRule := by
      rw [Grammar.rule?_eq_find?]
      rfl
    have hscan : (Terminal.literal ['i', '\u0307'] true).scan (Source.ofChars ['İ'] "cart").text 0 =
        .take 2 := by decide
    have hdepth : Parser.depth ⟨{ Grammar.dottedLetter with checked := true }, usualNestingLimit,
        rfl⟩ = 7998 + 2 := rfl
    simp only [Parser.prefixLength, Parser.run, hdepth, Matching.run, hrule, Matching.named,
      Grammar.dottedRule, Matching.terminal, State.offset_enter, State.initial, hscan]
    rfl

end CartLua
