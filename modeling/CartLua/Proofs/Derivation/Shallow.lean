import CartLua.Proofs.Derivation.Bounded
import CartLua.Proofs.Grammar.LuaSound

/-!
# How deep derivations are

Two dialects may reach the same text by patterns nested differently, so a derivation has to
be moved to another depth.  That is done from both ends.  Some patterns, such as an
expression, are not derived within a few levels at all; others, such as a keyword, have an
answer within a few levels, whatever the text.
-/

namespace CartLua

open Dialect

/-- A terminal but a long bracket matches or fails. -/
theorem Terminal.answer_ne_broken {t : Terminal} (ht : t ≠ .longBracket) (s : List Char) :
    t.answer s ≠ .broken := by
  rw [answer]
  split
  · simp
  · simp
  · simp
  · exact fun _ => scan_ne_unclosed ht _ _ _ ‹_›

namespace Answer

theorem after_ne_broken {x : Answer} (h : x ≠ broken) (parts : List Tree) :
    x.after parts ≠ broken := by
  cases x <;> simp_all [after]

theorem looked_ne_broken {x : Answer} (h : x ≠ broken) (negated : Bool) (s : List Char) :
    x.looked negated s ≠ broken := by
  cases x <;> cases negated <;> simp_all [looked]

theorem named_ne_broken {x : Answer} (h : x ≠ broken) (rule : Rule) : x.named rule ≠ broken := by
  cases x <;> simp_all [named]

end Answer

namespace Pattern

variable (dialect : Dialect)

/-- Whether a pattern is not derived within a depth, whatever the text. -/
def outgrows : Nat → Pattern → Bool
  | 0, _ => true
  | _ + 1, terminal _ => false
  | n + 1, seq (item :: _) => item.outgrows n
  | n + 1, choice (item :: _) => item.outgrows n
  | n + 1, star _ body => body.outgrows n
  | n + 1, plus _ body => body.outgrows n
  | n + 1, opt body => body.outgrows n
  | n + 1, lookahead _ body => body.outgrows n
  | n + 1, skipTo stop => stop.outgrows n
  | n + 1, repeatUntil _ stop _ => stop.outgrows n
  | n + 1, must body => body.outgrows n
  | n + 1, rule name =>
      ((dialect.rules.find? fun rule => rule.name == name).map fun rule =>
        rule.body.outgrows n).getD true
  | n + 1, ref _ name => (rule name).outgrows n
  | _ + 1, _ => false

/-- Whether a pattern matches or fails within a depth, whatever the text. -/
def settlesIn : Nat → Pattern → Bool
  | 0, _ => false
  | _ + 1, terminal t => t != .longBracket
  | n + 1, seq items => items.all fun item => item.settlesIn n
  | n + 1, choice items => items.all fun item => item.settlesIn n
  | n + 1, lookahead _ body => body.settlesIn n
  | n + 1, rule name =>
      ((dialect.rules.find? fun rule => rule.name == name).map fun rule =>
        rule.body.settlesIn n).getD false
  | n + 1, ref site name => site.isNone && (rule name).settlesIn n
  | _ + 1, _ => false

/-- Whether every derivation of a pattern stays within a depth, whatever the text. -/
def staysIn : Nat → Pattern → Bool
  | 0, _ => false
  | _ + 1, terminal _ => true
  | n + 1, seq items => items.all fun item => item.staysIn n
  | n + 1, choice items => items.all fun item => item.staysIn n
  | n + 1, star _ body => body.staysIn n
  | n + 1, plus _ body => body.staysIn n
  | n + 1, opt body => body.staysIn n
  | n + 1, atMost _ body => body.staysIn n
  | n + 1, lookahead _ body => body.staysIn n
  | n + 1, skipTo stop => stop.staysIn n
  | n + 1, repeatUntil _ stop body => stop.staysIn n && body.staysIn n
  | n + 1, must body => body.staysIn n
  | n + 1, rule name =>
      ((dialect.rules.find? fun rule => rule.name == name).map fun rule =>
        rule.body.staysIn n).getD false
  | n + 1, ref _ name => (rule name).staysIn n

end Pattern

namespace DerivesIn

variable {dialect : Dialect} {n depth : Nat} {p : Pattern} {s : List Char}

/-- What outgrows a depth is derived below it only. -/
theorem lt_of_outgrows {x : Answer} (h : DerivesIn dialect.grammar n p s x) (depth : Nat)
    (hp : p.outgrows dialect depth = true) : depth < n := by
  apply Nat.lt_of_not_le
  intro hle
  induction depth generalizing n p s x with
  | zero => cases Nat.le_zero.mp hle; nomatch h
  | succ depth ih =>
      cases h with
      | terminal => cases hp
      | seqNil => cases hp
      | seqCons first _ => exact ih first hp (by omega)
      | seqStop first _ => exact ih first hp (by omega)
      | choiceNil => cases hp
      | choiceHere first _ => exact ih first hp (by omega)
      | choiceNext first _ => exact ih first hp (by omega)
      | starMore round _ => exact ih round hp (by omega)
      | starStop round _ => exact ih round hp (by omega)
      | plusMore round _ => exact ih round hp (by omega)
      | plusStop round _ => exact ih round hp (by omega)
      | opt inner => exact ih inner hp (by omega)
      | atMostZero => cases hp
      | atMostMore => cases hp
      | atMostStop => cases hp
      | lookahead inner => exact ih inner hp (by omega)
      | skipHere here _ => exact ih here hp (by omega)
      | skipPass here _ => exact ih here hp (by omega)
      | skipEnd here => exact ih here hp (by omega)
      | untilHere here _ => exact ih here hp (by omega)
      | untilMore here _ _ => exact ih here hp (by omega)
      | untilStop here _ _ => exact ih here hp (by omega)
      | must inner => exact ih inner hp (by omega)
      | rule found inner =>
          simp only [rule?_eq] at found
          rw [Pattern.outgrows, found] at hp
          exact ih inner hp (by omega)
      | ref _ inner => exact ih inner hp (by omega)

/-- A pattern that stays within a depth is derived there, and below, as it is at all. -/
theorem of_staysIn {x : Answer} (hp : p.staysIn dialect depth = true)
    (h : Derives dialect.grammar p s x) (hle : depth ≤ n) : DerivesIn dialect.grammar n p s x := by
  induction h generalizing n depth
  all_goals
    obtain ⟨depth, rfl⟩ : ∃ k, depth = k + 1 := by
      cases depth with
      | zero => cases hp
      | succ k => exact ⟨k, rfl⟩
    obtain ⟨n, rfl⟩ : ∃ k, n = k + 1 := ⟨n - 1, by omega⟩
    replace hle : depth ≤ n := by omega
  case terminal t s => exact .terminal t s
  case seqNil s => exact .seqNil s
  case seqCons ihfirst ihothers =>
    have hitems := List.all_eq_true.mp hp
    refine .seqCons (ihfirst (hitems _ List.mem_cons_self) hle) (ihothers ?_ (Nat.succ_le_succ hle))
    exact List.all_eq_true.mpr fun q hq => hitems q (List.mem_cons_of_mem _ hq)
  case seqStop stops ihfirst =>
    exact .seqStop (ihfirst (List.all_eq_true.mp hp _ List.mem_cons_self) hle) stops
  case choiceNil s => exact .choiceNil s
  case choiceHere taken ihfirst =>
    exact .choiceHere (ihfirst (List.all_eq_true.mp hp _ List.mem_cons_self) hle) taken
  case choiceNext ihfirst ihothers =>
    have hitems := List.all_eq_true.mp hp
    refine .choiceNext (ihfirst (hitems _ List.mem_cons_self) hle)
      (ihothers ?_ (Nat.succ_le_succ hle))
    exact List.all_eq_true.mpr fun q hq => hitems q (List.mem_cons_of_mem _ hq)
  case starMore ihround ihothers =>
    exact .starMore (ihround hp hle) (ihothers hp (Nat.succ_le_succ hle))
  case starStop stops ihround => exact .starStop (ihround hp hle) stops
  case plusMore ihround ihothers =>
    exact .plusMore (ihround hp hle) (ihothers hp (Nat.succ_le_succ hle))
  case plusStop stops ihround => exact .plusStop (ihround hp hle) stops
  case opt ih => exact .opt (ih hp hle)
  case atMostZero s done => exact .atMostZero s done
  case atMostMore left _ _ ihround ihothers =>
    exact .atMostMore left (ihround hp hle) (ihothers hp (Nat.succ_le_succ hle))
  case atMostStop left _ stops ihround => exact .atMostStop left (ihround hp hle) stops
  case lookahead ih => exact .lookahead (ih hp hle)
  case skipHere taken ih => exact .skipHere (ih hp hle) taken
  case skipPass ihhere ihothers =>
    exact .skipPass (ihhere hp hle) (ihothers hp (Nat.succ_le_succ hle))
  case skipEnd ih => exact .skipEnd (ih hp hle)
  case untilHere taken ih => exact .untilHere (ih (Bool.and_eq_true_iff.mp hp).1 hle) taken
  case untilMore ihhere ihround ihothers =>
    have hboth := Bool.and_eq_true_iff.mp hp
    exact .untilMore (ihhere hboth.1 hle) (ihround hboth.2 hle)
      (ihothers hp (Nat.succ_le_succ hle))
  case untilStop stops ihhere ihround =>
    have hboth := Bool.and_eq_true_iff.mp hp
    exact .untilStop (ihhere hboth.1 hle) (ihround hboth.2 hle) stops
  case must ih => exact .must (ih hp hle)
  case rule found _ ih =>
    have hrule := found
    simp only [rule?_eq] at hrule
    rw [Pattern.staysIn, hrule] at hp
    exact .rule found (ih hp hle)
  case ref linked _ ih => exact .ref linked (ih hp hle)

/-- What settles within a depth matches or fails there and below. -/
theorem exists_of_settlesIn (hp : p.settlesIn dialect depth = true) (hle : depth ≤ n)
    (s : List Char) : ∃ x, DerivesIn dialect.grammar n p s x ∧ x ≠ .broken := by
  induction depth generalizing n p s with
  | zero => cases hp
  | succ depth ih =>
      obtain ⟨n, rfl⟩ : ∃ k, n = k + 1 := ⟨n - 1, by omega⟩
      replace hle : depth ≤ n := by omega
      cases p with
      | terminal t =>
          exact ⟨_, .terminal t s, t.answer_ne_broken (by simpa [Pattern.settlesIn] using hp) s⟩
      | seq items =>
          rw [Pattern.settlesIn, List.all_eq_true] at hp
          induction items generalizing s with
          | nil => exact ⟨_, .seqNil s, nofun⟩
          | cons item items ihitems =>
              obtain ⟨first, hfirst, hunbroken⟩ := ih (hp item List.mem_cons_self) hle s
              cases first with
              | matched parts rest =>
                  obtain ⟨x, hx, hothers⟩ :=
                    ihitems rest fun other h => hp other (List.mem_cons_of_mem item h)
                  exact ⟨_, .seqCons hfirst hx, Answer.after_ne_broken hothers parts⟩
              | failed => exact ⟨_, .seqStop hfirst id, hunbroken⟩
              | broken => exact absurd rfl hunbroken
      | choice items =>
          rw [Pattern.settlesIn, List.all_eq_true] at hp
          induction items with
          | nil => exact ⟨_, .choiceNil s, nofun⟩
          | cons item items ihitems =>
              obtain ⟨first, hfirst, hunbroken⟩ := ih (hp item List.mem_cons_self) hle s
              cases first with
              | matched parts rest => exact ⟨_, .choiceHere hfirst (by simp), nofun⟩
              | failed =>
                  obtain ⟨x, hx, hothers⟩ :=
                    ihitems fun other h => hp other (List.mem_cons_of_mem item h)
                  exact ⟨x, .choiceNext hfirst hx, hothers⟩
              | broken => exact absurd rfl hunbroken
      | lookahead negated body =>
          obtain ⟨x, hx, hunbroken⟩ := ih (p := body) hp hle s
          exact ⟨_, .lookahead hx, Answer.looked_ne_broken hunbroken negated s⟩
      | rule name =>
          rw [Pattern.settlesIn] at hp
          cases hfound : dialect.rules.find? (fun rule => rule.name == name) with
          | none => rw [hfound] at hp; cases hp
          | some rule =>
              rw [hfound] at hp
              obtain ⟨x, hx, hunbroken⟩ := ih (p := rule.body) hp hle s
              have hrule : dialect.grammar.rule? name = some rule := by
                simp only [rule?_eq, hfound]
              exact ⟨_, .rule hrule hx, Answer.named_ne_broken hunbroken rule⟩
      | ref site name =>
          rw [Pattern.settlesIn, Bool.and_eq_true] at hp
          obtain ⟨hsite, hname⟩ := hp
          cases Option.isNone_iff_eq_none.mp hsite
          obtain ⟨x, hx, hunbroken⟩ := ih (p := .rule name) hname hle s
          refine ⟨x, .ref ?_ hx, hunbroken⟩
          cases hx with
          | rule found _ => rw [isLinked_grammar, Grammar.defines, found]; rfl
      | _ => cases hp

/-- What settles within a depth has its answer there. -/
theorem of_settlesIn {x : Answer} (hp : p.settlesIn dialect depth = true)
    (h : Derives dialect.grammar p s x) (hle : depth ≤ n) : DerivesIn dialect.grammar n p s x := by
  obtain ⟨y, hy, -⟩ := exists_of_settlesIn hp hle s
  cases hy.erase.deterministic h
  exact hy

/-- What settles within a depth and does not match fails there. -/
theorem failed_of_settlesIn (hp : p.settlesIn dialect depth = true) (hle : depth ≤ n)
    (hnone : ∀ parts rest, ¬Derives dialect.grammar p s (.matched parts rest)) :
    DerivesIn dialect.grammar n p s .failed := by
  obtain ⟨x, hx, hunbroken⟩ := exists_of_settlesIn hp hle s
  cases x with
  | matched parts rest => exact absurd hx.erase (hnone parts rest)
  | failed => exact hx
  | broken => exact absurd rfl hunbroken

end DerivesIn

namespace Dialect

open Pattern

variable {dialect : Dialect} {n depth : Nat} {name : String} {s : List Char}

/-- Rules that are not derived within a depth. -/
def deepRules : List (String × Nat) :=
  [("expr_three", 8), ("expression", 5), ("for_statement_one", 3), ("chain_statement", 12)]

/-- Rules that match or fail within a depth. -/
def shallowRules : List (String × Nat) :=
  ("name", 9) :: keywords.map fun word => (keyName word, 5)

theorem depths_rules (dialect : Dialect) :
    deepRules.all (fun entry => (call entry.1).outgrows dialect entry.2) = true ∧
      shallowRules.all (fun entry => (call entry.1).settlesIn dialect entry.2) = true := by
  cases dialect <;> decide

theorem outgrows_of_mem (h : (name, depth) ∈ deepRules) :
    (call name).outgrows dialect depth = true :=
  List.all_eq_true.mp (depths_rules dialect).1 _ h

theorem settlesIn_of_mem (h : (name, depth) ∈ shallowRules) :
    (call name).settlesIn dialect depth = true :=
  List.all_eq_true.mp (depths_rules dialect).2 _ h

theorem settlesIn_key {word : String} (hword : word ∈ keywords) :
    (key word).settlesIn dialect 5 = true :=
  settlesIn_of_mem (List.mem_cons_of_mem _ (List.mem_map_of_mem hword))

/-- Whether a rule matches the whole of a source always has an answer, which is yes just when the
rule is derived within the depth of the parser and leaves nothing. -/
theorem isMatch_iff_derivesIn {limit : Int} {source : Source}
    (hname : name ∈ dialect.rules.map Rule.name) :
    (∃ answer, ((dialect.parser limit).isMatch name source).1 = .ok answer) ∧
      (((dialect.parser limit).isMatch name source).1 = .ok true ↔
        ∃ parts, DerivesIn dialect.grammar (dialect.parser limit).depth (.rule name) source.chars
          (.matched parts [])) := by
  have hanswers := answers_run (recordable dialect).toSound source.text (Observer.idle Unit)
    (dialect.parser limit).depth (sound_rule hname) (State.initial ()) (Nat.zero_le _)
  rw [Parser.isMatch, Parser.prefixLength, Parser.run]
  rcases houtcome : Matching.run ⟨source.text, (dialect.parser limit).grammar.rule?,
    (dialect.parser limit).grammar.isLinked, Observer.idle Unit⟩ (dialect.parser limit).depth
    (.rule name) (State.initial ()) with ⟨verdict, last⟩
  change Matching.run ⟨source.text, dialect.grammar.rule?, dialect.grammar.isLinked,
    Observer.idle Unit⟩ _ _ _ = _ at houtcome
  rw [houtcome] at hanswers
  cases verdict with
  | matched =>
      obtain ⟨hsize, parts, hparts⟩ := hanswers
      have hlength : (Text.rest source.text last.offset).length = 0 ↔
          last.offset = source.length := by
        rw [Text.length_rest, Source.length]
        omega
      refine ⟨⟨_, rfl⟩, ?_, ?_⟩
      · intro hmatch
        have hoffset : last.offset = source.length := by simpa using hmatch
        rw [List.length_eq_zero_iff.mp (hlength.mpr hoffset)] at hparts
        exact ⟨parts, hparts⟩
      · rintro ⟨more, hmore⟩
        have heq : Answer.matched more [] = .matched parts (Text.rest source.text last.offset) :=
          hmore.eq_of hparts
        have hoffset := hlength.mp (List.length_eq_zero_iff.mpr (Answer.matched.inj heq).2.symm)
        simpa using hoffset
  | failed =>
      refine ⟨⟨_, rfl⟩, ?_, ?_⟩
      · intro hmatch
        cases hmatch
      · rintro ⟨parts, hparts⟩
        cases hparts.eq_of hanswers.2
  | stopped stop =>
      rcases hanswers with ⟨rfl, hnone⟩ | ⟨⟨fault, rfl⟩, hbroken⟩
      · refine ⟨⟨_, rfl⟩, by rintro ⟨⟩, ?_⟩
        rintro ⟨parts, hparts⟩
        exact absurd hparts (hnone _)
      · refine ⟨⟨_, rfl⟩, by rintro ⟨⟩, ?_⟩
        rintro ⟨parts, hparts⟩
        cases hparts.eq_of hbroken

/-- A rule that stays within every limit matches the whole of a source, under every limit, just
when it is derived from it. -/
theorem isMatch_iff {limit : Int} {source : Source} (hname : name ∈ dialect.rules.map Rule.name)
    (hstays : (rule name).staysIn dialect depth = true) (hdepth : depth ≤ leastNesting) :
    ((dialect.parser limit).isMatch name source).1 = .ok true ↔
      ∃ tree, Derives dialect.grammar (.rule name) source.chars (.matched [tree] []) := by
  have hlimit : depth ≤ (dialect.parser limit).depth := by
    simp only [Parser.depth]
    omega
  rw [(isMatch_iff_derivesIn hname).2]
  constructor
  · rintro ⟨parts, hparts⟩
    obtain ⟨rule, hrule⟩ := (linked_of_mem_names hname).2
    obtain ⟨inner, rfl, -⟩ := (Match.rule_iff hrule).mp hparts.erase.toMatch
    exact ⟨_, hparts.erase⟩
  · rintro ⟨tree, htree⟩
    exact ⟨_, .of_staysIn hstays htree hlimit⟩

end Dialect

end CartLua
