import CartLua.Proofs.Lexical.Padding

/-!
# From derivations back to matches

A pattern that settles within a few levels has one answer, whatever the text, and a match that
may go that deep ends with it.  So what derivations say of such a rule holds of every run that
tries it, wherever the cursor is and whatever the state holds besides.
-/

namespace CartLua

open Dialect

variable {σ : Type}

namespace Outcome

/-- Whether a match took just these characters. -/
def Took (outcome : Outcome σ) (origin : State σ) (taken : List Char) : Prop :=
  outcome.verdict = .matched ∧ outcome.state.offset = origin.offset + taken.length

/-- Whether there is no match, and the cursor is where it was. -/
def Missed (outcome : Outcome σ) (origin : State σ) : Prop :=
  outcome.verdict = .failed ∧ outcome.state.offset = origin.offset

instance (outcome : Outcome σ) (origin : State σ) (taken : List Char) :
    Decidable (outcome.Took origin taken) :=
  inferInstanceAs (Decidable (_ ∧ _))

instance (outcome : Outcome σ) (origin : State σ) : Decidable (outcome.Missed origin) :=
  inferInstanceAs (Decidable (_ ∧ _))

end Outcome

namespace Answers

variable {g : Grammar} {text : Array Char} {n : Nat} {p : Pattern} {origin : State σ}
  {outcome : Outcome σ} {taken rest : List Char} {parts : List Tree}

/-- Where a match is derived, the outcome is one that leaves the same rest. -/
theorem took (h : Answers g text n p origin.offset origin.offset outcome)
    (hs : Text.rest text origin.offset = taken ++ rest) (horigin : origin.offset ≤ text.size)
    (hderives : DerivesIn g n p (Text.rest text origin.offset) (.matched parts rest)) :
    outcome.Took origin taken := by
  obtain ⟨verdict, last⟩ := outcome
  cases verdict with
  | matched =>
      obtain ⟨hsize, found, hfound⟩ := h
      cases hfound.eq_of hderives
      have hlength := congrArg List.length hs
      rw [List.length_append, Text.length_rest, Text.length_rest] at hlength
      refine ⟨rfl, ?_⟩
      dsimp only at hsize hlength ⊢
      omega
  | failed => nomatch h.2.eq_of hderives
  | stopped stop =>
      rcases h with ⟨-, hnone⟩ | ⟨-, hbroken⟩
      · exact absurd hderives (hnone _)
      · nomatch hbroken.eq_of hderives

/-- Where a failure is derived, the outcome is one. -/
theorem missed (h : Answers g text n p origin.offset origin.offset outcome)
    (hderives : DerivesIn g n p (Text.rest text origin.offset) .failed) :
    outcome.Missed origin := by
  obtain ⟨verdict, last⟩ := outcome
  cases verdict with
  | matched =>
      obtain ⟨-, parts, hparts⟩ := h
      nomatch hparts.eq_of hderives
  | failed => exact ⟨rfl, h.1⟩
  | stopped stop =>
      rcases h with ⟨-, hnone⟩ | ⟨-, hbroken⟩
      · exact absurd hderives (hnone _)
      · nomatch hbroken.eq_of hderives

end Answers

namespace Dialect

variable {dialect : Dialect} {text : Array Char} {observer : Observer σ} {n depth : Nat}
  {origin : State σ} {rule : Rule} {taken rest : List Char}

/-- What a rule is derived as under its name. -/
theorem derives_rule_of_call {name : String} {s : List Char} {a : Answer}
    (h : Derives dialect.grammar (.call name) s a) : Derives dialect.grammar (.rule name) s a := by
  cases h with
  | ref _ inner => exact inner

/-- A rule settles a level below a call of it. -/
theorem settlesIn_rule_of_call {name : String}
    (h : (Pattern.call name).settlesIn dialect (n + 1) = true) :
    (Pattern.rule name).settlesIn dialect n = true :=
  (Bool.and_eq_true_iff.mp h).2

/-- A rule that settles takes in a match what it takes at all. -/
theorem run_took (hrule : rule ∈ dialect.rules)
    (hsettles : (Pattern.call rule.name).settlesIn dialect (n + 1) = true) (hdepth : n ≤ depth)
    (horigin : origin.offset ≤ text.size) (hs : Text.rest text origin.offset = taken ++ rest)
    (h : Takes dialect.grammar (.call rule.name) (taken ++ rest) rest) :
    (Matching.run (dialect.grammar.setting text observer) depth (.rule rule.name) origin).Took
      origin taken := by
  obtain ⟨parts, hcall⟩ := h
  have hsound := sound_rule (List.mem_map_of_mem (f := Rule.name) hrule)
  have hanswers :=
    answers_run (recordable dialect).toSound text observer depth hsound origin horigin
  have hderives :=
    DerivesIn.of_settlesIn (settlesIn_rule_of_call hsettles) (derives_rule_of_call hcall) hdepth
  exact hanswers.took hs horigin (hs ▸ hderives)

/-- A rule that settles fails in a match where it fails at all. -/
theorem run_missed (hrule : rule ∈ dialect.rules)
    (hsettles : (Pattern.call rule.name).settlesIn dialect (n + 1) = true) (hdepth : n ≤ depth)
    (horigin : origin.offset ≤ text.size)
    (h : Derives dialect.grammar (.call rule.name) (Text.rest text origin.offset) .failed) :
    (Matching.run (dialect.grammar.setting text observer) depth (.rule rule.name) origin).Missed
      origin := by
  have hsound := sound_rule (List.mem_map_of_mem (f := Rule.name) hrule)
  have hanswers :=
    answers_run (recordable dialect).toSound text observer depth hsound origin horigin
  exact hanswers.missed
    (DerivesIn.of_settlesIn (settlesIn_rule_of_call hsettles) (derives_rule_of_call h) hdepth)

end Dialect

end CartLua
