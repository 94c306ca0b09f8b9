import CartLua.Proofs.Derivation.Bounded
import CartLua.Proofs.Grammar.Termination
import CartLua.Proofs.Matching.FaultPlaces
import CartLua.Proofs.Matching.MoreDepth
import CartLua.Proofs.Occurrence.Confirmed

/-!
# What a parse comes to

A parser of Lua whose limit is high enough gives one of three results for a text: the text is
consumed to its end, or it does not follow the grammar at some place in it, or a long bracket is
opened in it and never closed.  No result says that a part of the text was consumed.

That matching comes to an end is seen from the rules.  They stand in a row in which each one
begins only with later ones, so that a chain of rules that take nothing has an end, and no loop
repeats what can match nothing.
-/

namespace CartLua

namespace Pattern

theorem sizeOf_lt_of_mem_parts {p q : Pattern} (hq : q ∈ p.parts) : sizeOf q < sizeOf p := by
  cases p with
  | seq items =>
      have hlt : sizeOf q < sizeOf items := List.sizeOf_lt_of_mem hq
      simp only [seq.sizeOf_spec]
      omega
  | choice alternatives =>
      have hlt : sizeOf q < sizeOf alternatives := List.sizeOf_lt_of_mem hq
      simp only [choice.sizeOf_spec]
      omega
  | repeatUntil site stop body =>
      rcases List.mem_cons.mp hq with rfl | hq
      · simp only [repeatUntil.sizeOf_spec]
        omega
      · cases List.mem_singleton.mp hq
        simp only [repeatUntil.sizeOf_spec]
        omega
  | terminal t => cases hq
  | rule name => cases hq
  | ref site name => cases hq
  | _ =>
      cases List.mem_singleton.mp hq
      simp +arith

/-- Everything inside a sound pattern is sound. -/
theorem sound_of_mem_subpatterns {traits : Traits} {p q : Pattern} (hp : p.sound traits = true)
    (hq : q ∈ p.subpatterns) : q.sound traits = true := by
  rcases mem_subpatterns.mp hq with rfl | ⟨part, hpart, hq⟩
  · exact hp
  · exact sound_of_mem_subpatterns (sound_of_mem_parts hp hpart) hq
termination_by sizeOf p
decreasing_by exact sizeOf_lt_of_mem_parts hpart

end Pattern

namespace Grammar.Sound

variable {g : Grammar}

theorem closed (hg : g.Sound) : Matching.Closed g.rule? hg.traits.nullable := by
  intro name rule hrule hbody
  rw [← name_of_rule? hrule]
  exact hg.nullable rule (mem_of_rule? hrule) hbody

theorem defines_of_contains (hg : g.Sound) {name : String}
    (hname : hg.traits.defined.contains name = true) : g.defines name = true := by
  obtain ⟨-, rule, hrule⟩ := hg.defined name hname
  rw [defines, hrule]
  rfl

/-- Nothing inside a sound rule repeats what can match nothing, or refers to no rule. -/
theorem harmless (hg : g.Sound) : ∀ rule ∈ g.rules, ∀ q ∈ rule.body.subpatterns,
    g.Harmless hg.traits.nullable q := by
  intro rule hrule q hq
  have hsound := Pattern.sound_of_mem_subpatterns (hg.sound rule hrule) hq
  cases q with
  | star site body =>
      simp only [Pattern.sound, Bool.and_eq_true, Bool.not_eq_true'] at hsound
      exact hsound.1.1
  | plus site body =>
      simp only [Pattern.sound, Bool.and_eq_true, Bool.not_eq_true'] at hsound
      exact hsound.1.1
  | repeatUntil site stop body =>
      simp only [Pattern.sound, Bool.and_eq_true, Bool.not_eq_true'] at hsound
      exact hsound.1.1.1
  | rule name => exact hg.defines_of_contains hsound
  | ref site name =>
      simp only [Pattern.sound, Bool.and_eq_true, Option.isNone_iff_eq_none] at hsound
      obtain ⟨rfl, hname⟩ := hsound
      exact ⟨hg.defines_of_contains hname, (hg.defined name hname).1⟩
  | _ => trivial

end Grammar.Sound

/-! ## The rules in a row -/

namespace Rule

/-- Whether each rule of a row begins only with later ones. -/
def inRow (known : List String) : List Rule → Bool
  | [] => true
  | rule :: others =>
      (rule.body.firstCalls known).all (fun name => (others.map Rule.name).contains name) &&
        inRow known others

end Rule

/-- A row of rules, each found by its name, is one of their names. -/
theorem Grammar.layered_of_inRow {g : Grammar} {known : List String} {row : List Rule}
    (hfound : ∀ rule ∈ row, g.rule? rule.name = some rule) (hrow : Rule.inRow known row = true) :
    Layered (g.leftCalls known) (row.map Rule.name) := by
  induction row with
  | nil => trivial
  | cons rule others ih =>
      rw [Rule.inRow, Bool.and_eq_true, List.all_eq_true] at hrow
      refine ⟨fun callee hcallee => ?_,
        ih (fun r hr => hfound r (List.mem_cons_of_mem _ hr)) hrow.2⟩
      rw [leftCalls, hfound rule List.mem_cons_self] at hcallee
      have hcall := (List.mem_filter.mp (mem_sortedNames.mp hcallee)).1
      simpa using hrow.1 callee hcall

namespace Dialect

/-- Whether a rule begins with one that is defined after it. -/
def beginsWithLater (rule : Rule) : Bool :=
  ["expr_list_must", "table_field", "table_field_list", "statement_return",
    "variable_continuation"].contains rule.name

/-- The rules of a dialect in a row.  Nearly all of them begin only with rules defined before
them, so the row goes from the last rule to the first, and the others come before these. -/
def row (dialect : Dialect) : List Rule :=
  (dialect.rules.filter beginsWithLater).reverse ++
    (dialect.rules.filter fun rule => !beginsWithLater rule).reverse

theorem mem_row {dialect : Dialect} {rule : Rule} : rule ∈ dialect.row ↔ rule ∈ dialect.rules := by
  cases h : beginsWithLater rule <;> simp [row, h]

theorem inRow_row (dialect : Dialect) :
    Rule.inRow dialect.traits.nullable dialect.row = true := by
  cases dialect <;> decide +kernel

/-- In both dialects every rule comes to an end. -/
theorem settles (dialect : Dialect) (text : Array Char) (left : Nat) (name : String)
    (hname : dialect.grammar.defines name = true) :
    dialect.grammar.Settles text left (.rule name) := by
  have hrow : Grammar.Layered (dialect.grammar.leftCalls dialect.traits.nullable)
      (dialect.row.map Rule.name) :=
    Grammar.layered_of_inRow (fun rule hrule => rule?_grammar (mem_row.mp hrule))
      (inRow_row dialect)
  refine Grammar.settles_of_row (recordable dialect).closed (recordable dialect).harmless hrow
    ?_ text left name hname
  intro other hother
  obtain ⟨rule, hrule⟩ := Option.isSome_iff_exists.mp hother
  rw [← Grammar.name_of_rule? hrule]
  have hmem := Grammar.mem_of_rule? hrule
  rw [rules_grammar] at hmem
  exact List.mem_map_of_mem (mem_row.mpr hmem)

/-- A match of a dialect, with each rule looked up in the list of rules. -/
theorem setting_eq {σ : Type} (dialect : Dialect) (text : Array Char) (observer : Observer σ) :
    dialect.grammar.setting text observer =
      { text := text
        rule? := fun name => dialect.rules.find? fun rule => rule.name == name
        isLinked := fun site name =>
          site.isNone && (dialect.rules.find? fun rule => rule.name == name).isSome
        observer := observer } := by
  rw [Grammar.setting, rule?_eq, isLinked_eq]

theorem root_grammar (dialect : Dialect) : dialect.grammar.root = rootName := by
  cases dialect <;> rfl

theorem sound_root (dialect : Dialect) :
    (Pattern.rule dialect.grammar.root).sound (recordable dialect).traits = true := by
  rw [root_grammar]
  exact sound_rootName dialect

/-- A match of a whole text leads to its end. -/
theorem offset_eq_of_matched {σ : Type} {dialect : Dialect} {source : Source}
    {observer : Observer σ} {depth : Nat} {start : σ} {last : State σ}
    (hrun : Matching.run (dialect.grammar.setting source.text observer) depth
      (.rule dialect.grammar.root) (State.initial start) = ⟨.matched, last⟩) :
    last.offset = source.length := by
  have hanswers := answers_run (recordable dialect).toSound source.text observer depth
    (sound_root dialect) (State.initial start) (Nat.zero_le _)
  rw [Grammar.setting] at hrun
  rw [hrun] at hanswers
  obtain ⟨hsize, parts, hparts⟩ := hanswers
  rw [root_grammar] at hparts
  have hrest := congrArg List.length (of_program hparts.erase.toMatch).1
  rw [Text.length_rest, List.length_nil] at hrest
  exact Nat.le_antisymm hsize (Nat.le_of_sub_eq_zero hrest)

end Dialect

/-! ## Results -/

/-- What a parse of a source comes to when no limit stops it. -/
inductive Parser.Concluded (source : Source) : Except Failure Parsed → Prop
  /-- The whole text is consumed. -/
  | complete {parsed : Parsed} (consumed_eq : parsed.consumed = source.length)
      (complete_eq : parsed.complete = true) : Concluded source (.ok parsed)
  /-- The text stops following the grammar at a place in it. -/
  | mismatch {e : ParseError} {offset : Nat} (code_eq : e.code = "P001")
      (offset_eq : e.location.offset = offset) (inside : offset ≤ source.length) :
      Concluded source (.error (.parse e))
  /-- A long bracket is opened at a place in the text and never closed. -/
  | unclosed {e : ParseError} {level offset : Nat} (code_eq : e.code = "P002")
      (offset_eq : e.location.offset = offset) (inside : offset ≤ source.length)
      (opens : Text.OpensUnclosed source.text level offset) : Concluded source (.error (.parse e))

theorem Text.OpensUnclosed.le_size {text : Array Char} {level offset : Nat}
    (h : OpensUnclosed text level offset) : offset ≤ text.size := by
  have hlength := h.opens.length_le
  simp only [Terminal.openingBracket, List.length_append, List.length_singleton, length_rest]
    at hlength
  omega

/-- A located fault is reported where it is. -/
theorem Fault.Located.concluded {source : Source} {fault : Fault}
    (h : fault.Located source.text) (keywords : List String) :
    Parser.Concluded source (.error (.parse (.ofFault source keywords fault))) := by
  cases fault with
  | mismatch expected offset context => exact .mismatch rfl rfl h
  | unclosedBracket level offset context => exact .unclosed rfl rfl h.le_size h

namespace Parser

variable {σ : Type}

/-- A parse is concluded if its match has an end of its own, if that end is in the text, and if
a match leads to the end of the text. -/
theorem concluded_parse {p : Parser} {observer : Observer σ} {start : σ} {source : Source}
    {outcome : Outcome σ} (hrun : p.run observer start p.grammar.root source = outcome)
    (hsettled : outcome.verdict.Settled) (hplaced : outcome.Placed source.text)
    (hwhole : outcome.verdict = .matched → outcome.state.offset = source.length) :
    Concluded source (p.parse observer start source).1 := by
  rcases outcome with ⟨verdict, last⟩
  rw [parse, prefixLength, hrun]
  cases hsettled with
  | matched =>
      have hconsumed := hwhole rfl
      exact .complete hconsumed (by simpa using hconsumed)
  | failed => exact (hplaced.inside.located_mismatch _).concluded _
  | fault fault => exact (hplaced.located fault rfl).concluded _

/-- Two parsers of one dialect that match a text alike give one result for it, unless they are
stopped for depth. -/
theorem parse_eq_of_run_eq {dialect : Dialect} {limit other : Int} {observer : Observer σ}
    {start : σ} {source : Source} {outcome : Outcome σ}
    (hrun : (dialect.parser limit).run observer start dialect.grammar.root source = outcome)
    (hother : (dialect.parser other).run observer start dialect.grammar.root source = outcome)
    (hsettled : outcome.verdict.Settled) :
    (dialect.parser limit).parse observer start source =
      (dialect.parser other).parse observer start source := by
  rcases outcome with ⟨verdict, last⟩
  change (dialect.parser limit).run observer start (dialect.parser limit).grammar.root source = _
    at hrun
  change (dialect.parser other).run observer start (dialect.parser other).grammar.root source = _
    at hother
  rw [parse, parse, prefixLength, prefixLength, hrun, hother]
  cases hsettled <;> rfl

theorem depth_le_depth {dialect : Dialect} {limit other : Int} (h : limit ≤ other) :
    (dialect.parser limit).depth ≤ (dialect.parser other).depth := by
  simp only [depth, Dialect.parser]
  omega

end Parser

namespace Dialect

variable {σ : Type} {dialect : Dialect} {limit : Int} {observer : Observer σ} {start : σ}
  {source : Source}

/-- Under every limit a parse that has a result has consumed the whole text. -/
theorem complete_of_parse_eq_ok {parsed : Parsed}
    (hparsed : ((dialect.parser limit).parse observer start source).1 = .ok parsed) :
    parsed.consumed = source.length ∧ parsed.complete = true := by
  rw [Parser.parse, Parser.prefixLength] at hparsed
  rcases hrun : (dialect.parser limit).run observer start (dialect.parser limit).grammar.root
    source with ⟨verdict, last⟩
  rw [hrun] at hparsed
  cases verdict with
  | matched =>
      cases hparsed
      have hconsumed : last.offset = source.length := offset_eq_of_matched hrun
      exact ⟨hconsumed, by simpa using hconsumed⟩
  | failed => cases hparsed
  | stopped stop => cases hparsed

/-- A parse whose match has an end of its own is concluded. -/
theorem concluded_of_settled
    (hsettled : ((dialect.parser limit).run observer start dialect.grammar.root
      source).verdict.Settled) :
    Parser.Concluded source ((dialect.parser limit).parse observer start source).1 := by
  have hplaced := Matching.placing_run (recordable dialect).toSound source.text observer
    (dialect.parser limit).depth (sound_root dialect) _ (State.inside_initial source.text start)
  rcases hrun : (dialect.parser limit).run observer start dialect.grammar.root source with
    ⟨verdict, last⟩
  rw [hrun] at hsettled
  refine Parser.concluded_parse hrun hsettled (hrun ▸ hplaced) ?_
  rintro rfl
  exact offset_eq_of_matched hrun

end Dialect

/-- A parse of either dialect comes to an end, with one result under every limit that is high
enough: the whole text is consumed, or an error in the text is located, and that of a long
bracket where the bracket is opened and not closed.  Under no limit is a text said to be
consumed in part, and throughout a parse the last token ends at or before the cursor, which
is in the text.  Texts are sequences of Unicode scalar values. -/
theorem parse_concludes (dialect : Dialect) (source : Source) :
    (∃ least : Int, ∀ (σ : Type) (observer : Observer σ) (start : σ),
      ∃ result : Except Failure Parsed × State σ, Parser.Concluded source result.1 ∧
        ∀ limit, least ≤ limit → (dialect.parser limit).parse observer start source = result) ∧
    ∀ (limit : Int) (σ : Type) (observer : Observer σ) (start : σ),
      (∀ parsed, ((dialect.parser limit).parse observer start source).1 = .ok parsed →
        parsed.consumed = source.length ∧ parsed.complete = true) ∧
      ∀ st, Matching.Passes (dialect.grammar.setting source.text observer)
          (dialect.parser limit).depth (.rule dialect.grammar.root) (State.initial start) st →
        st.tokenEnd ≤ st.offset ∧ st.offset ≤ source.length := by
  have hsound := Dialect.sound_root dialect
  constructor
  · have hroot : dialect.grammar.defines dialect.grammar.root = true :=
      (Dialect.recordable dialect).defines_of_contains hsound
    obtain ⟨least, hends⟩ := dialect.settles source.text source.text.size _ hroot
    refine ⟨least, fun σ observer start => ?_⟩
    have hdepth : least ≤ (dialect.parser least).depth := by
      simp only [Parser.depth, Dialect.parser]
      omega
    have hsettled : ((dialect.parser least).run observer start dialect.grammar.root
        source).verdict.Settled :=
      hends _ hdepth σ observer (State.initial start) (Nat.sub_le _ _)
    have hdeep : ((dialect.parser least).run observer start dialect.grammar.root
        source).verdict ≠ .stopped .tooDeep := by
      intro hdeep
      rw [hdeep] at hsettled
      cases hsettled
    refine ⟨_, Dialect.concluded_of_settled hsettled, fun limit hlimit => ?_⟩
    have hrun := Matching.run_eq_of_le hdeep (Parser.depth_le_depth hlimit)
    exact Parser.parse_eq_of_run_eq hrun rfl hsettled
  · intro limit σ observer start
    refine ⟨fun parsed => Dialect.complete_of_parse_eq_ok, fun st hpasses => ?_⟩
    have hinside := Matching.inside_of_passes (Dialect.recordable dialect).toSound hsound
      (State.inside_initial source.text start) hpasses
    exact ⟨hinside.tokenEnd_le, hinside.offset_le⟩

end CartLua
