import CartLua.Proofs.Derivation.Outlines
import CartLua.Proofs.Dialect.Conservative
import CartLua.Proofs.Parser.Completion

/-!
# What patterns leave of a text

For the course of a match it only matters what each pattern leaves of the text, or that it fails,
or that the text is in error.  These remnants are put together here as the patterns are, and the
remnant of a rule decides what the parser makes of a whole text, as soon as its limit is high
enough.
-/

namespace CartLua

open Dialect Pattern

/-- What a pattern leaves of a text. -/
inductive Remnant
  | rest (s : List Char)
  | failed
  /-- The text is in error. -/
  | broken
  deriving DecidableEq

namespace Remnant

/-- A remnant, or another one in its place when the pattern fails. -/
def orElse : Remnant → Remnant → Remnant
  | failed, other => other
  | x, _ => x

@[simp]
theorem failed_orElse (x : Remnant) : failed.orElse x = x := rfl

@[simp]
theorem rest_orElse (s : List Char) (x : Remnant) : (rest s).orElse x = rest s := rfl

@[simp]
theorem broken_orElse (x : Remnant) : broken.orElse x = broken := rfl

@[simp]
theorem orElse_failed (x : Remnant) : x.orElse failed = x := by
  cases x <;> rfl

end Remnant

/-- Whether a pattern leaves a remnant of a text. -/
def Leaves (g : Grammar) (p : Pattern) (s : List Char) : Remnant → Prop
  | .rest t => Takes g p s t
  | .failed => Derives g p s .failed
  | .broken => Derives g p s .broken

namespace Leaves

variable {g : Grammar} {dialect : Dialect} {p : Pattern} {items : List Pattern}
  {s t : List Char} {x y : Remnant}

/-- A pattern leaves one remnant of a text. -/
theorem unique (hx : Leaves g p s x) (hy : Leaves g p s y) : x = y := by
  cases x <;> cases y
  case rest.rest =>
    obtain ⟨_, hx⟩ := hx
    obtain ⟨_, hy⟩ := hy
    rw [(Answer.matched.inj (hx.deterministic hy)).2]
  case rest.failed => obtain ⟨_, hx⟩ := hx; nomatch hx.deterministic hy
  case rest.broken => obtain ⟨_, hx⟩ := hx; nomatch hx.deterministic hy
  case failed.rest => obtain ⟨_, hy⟩ := hy; nomatch hx.deterministic hy
  case broken.rest => obtain ⟨_, hy⟩ := hy; nomatch hx.deterministic hy
  case failed.failed => rfl
  case broken.broken => rfl
  case failed.broken => nomatch Derives.deterministic hx hy
  case broken.failed => nomatch Derives.deterministic hx hy

/-- A pattern that answers on one text as another does on another text leaves the same. -/
theorem transfer {q : Pattern} (h : Leaves g q t x)
    (hmatched : ∀ parts u, Derives g q t (.matched parts u) →
      ∃ more, Derives g p s (.matched more u))
    (hfailed : Derives g q t .failed → Derives g p s .failed)
    (hbroken : Derives g q t .broken → Derives g p s .broken) : Leaves g p s x := by
  cases x with
  | rest u =>
      obtain ⟨parts, hparts⟩ := h
      exact hmatched parts u hparts
  | failed => exact hfailed h
  | broken => exact hbroken h

theorem seq_cons (first : Takes g p s t) (others : Leaves g (.seq items) t x) :
    Leaves g (.seq (p :: items)) s x := by
  obtain ⟨parts, hfirst⟩ := first
  exact others.transfer (fun _ _ h => ⟨_, .seqCons hfirst h⟩) (.seqCons hfirst) (.seqCons hfirst)

theorem seq_last (h : Leaves g p s x) : Leaves g (.seq [p]) s x :=
  h.transfer (fun _ u h => ⟨_, .seqCons h (.seqNil u)⟩) (.seqStop · id) (.seqStop · id)

theorem seq_failed (h : Derives g p s .failed) : Leaves g (.seq (p :: items)) s .failed :=
  .seqStop h id

theorem seq_broken (h : Derives g p s .broken) : Leaves g (.seq (p :: items)) s .broken :=
  .seqStop h id

theorem choice_here (h : Takes g p s t) : Leaves g (.choice (p :: items)) s (.rest t) :=
  takes_choice_cons.mpr (.inl h)

theorem choice_next (hfailed : Leaves g p s .failed) (others : Leaves g (.choice items) s x) :
    Leaves g (.choice (p :: items)) s x :=
  have hfailed : Derives g p s .failed := hfailed
  others.transfer (fun _ _ h => ⟨_, .choiceNext hfailed h⟩) (.choiceNext hfailed)
    (.choiceNext hfailed)

theorem choice_nil (s : List Char) : Leaves g (.choice []) s .failed := Derives.choiceNil s

theorem choice_cons (h : Leaves g p s x) (others : x = .failed → Leaves g (.choice items) s y) :
    Leaves g (.choice (p :: items)) s (x.orElse y) := by
  cases x with
  | rest t => exact choice_here h
  | failed => exact choice_next h (others rfl)
  | broken => exact .choiceHere h (by simp)

theorem choice_last (h : Leaves g p s x) : Leaves g (.choice [p]) s x := by
  simpa using h.choice_cons fun _ => choice_nil s

theorem opt (h : Leaves g p s x) : Leaves g (.opt p) s (x.orElse (.rest s)) := by
  cases x with
  | rest t =>
      obtain ⟨parts, hparts⟩ := h
      exact ⟨parts, .opt hparts⟩
  | failed => exact ⟨[], .opt h⟩
  | broken => exact .opt h

theorem must (h : Leaves g p s x) : Leaves g (.must p) s (if x = .failed then .broken else x) := by
  cases x with
  | rest t => exact takes_must.mpr h
  | failed => exact .must h
  | broken => exact .must h

theorem star_more {site : Site} (round : Takes g p s t) (others : Leaves g (.star site p) t x) :
    Leaves g (.star site p) s x := by
  obtain ⟨parts, hround⟩ := round
  exact others.transfer (fun _ _ h => ⟨_, .starMore hround h⟩) (.starMore hround)
    (.starMore hround)

theorem star_stop {site : Site} (h : Leaves g p s .failed) :
    Leaves g (.star site p) s (.rest s) :=
  ⟨[], .starStop h id⟩

theorem star_broken {site : Site} (h : Leaves g p s .broken) :
    Leaves g (.star site p) s .broken :=
  Derives.starStop h id

theorem until_here {site : Site} {stop : Pattern} (h : Takes g stop s t) :
    Leaves g (.repeatUntil site stop p) s (.rest t) := by
  obtain ⟨parts, hparts⟩ := h
  exact ⟨parts, .untilHere hparts (by simp)⟩

theorem until_more {site : Site} {stop : Pattern} (here : Leaves g stop s .failed)
    (round : Takes g p s t) (others : Leaves g (.repeatUntil site stop p) t x) :
    Leaves g (.repeatUntil site stop p) s x := by
  obtain ⟨parts, hround⟩ := round
  have here : Derives g stop s .failed := here
  exact others.transfer (fun _ _ h => ⟨_, .untilMore here hround h⟩) (.untilMore here hround)
    (.untilMore here hround)

theorem until_stop {site : Site} {stop : Pattern} (here : Leaves g stop s .failed)
    (round : Leaves g p s .failed) : Leaves g (.repeatUntil site stop p) s .failed :=
  Derives.untilStop here round id

theorem until_broken {site : Site} {stop : Pattern} (here : Leaves g stop s .failed)
    (round : Leaves g p s .broken) : Leaves g (.repeatUntil site stop p) s .broken :=
  Derives.untilStop here round id

theorem call {rule : Rule} (hrule : rule ∈ dialect.rules)
    (h : Leaves dialect.grammar rule.body s x) :
    Leaves dialect.grammar (.call rule.name) s x := by
  have hfound := rule?_grammar hrule
  exact h.transfer (fun _ _ h => ⟨_, Pattern.ref_of_rule (.rule hfound h)⟩)
    (fun h => Pattern.ref_of_rule (.rule hfound h)) (fun h => Pattern.ref_of_rule (.rule hfound h))

/-- A rule leaves what a reference to it does. -/
theorem of_call {name : String} (h : Leaves dialect.grammar (.call name) s x) :
    Leaves dialect.grammar (.rule name) s x := by
  have hrule : ∀ {a}, Derives dialect.grammar (.call name) s a →
      Derives dialect.grammar (.rule name) s a := fun h => by
    cases h with
    | ref _ inner => exact inner
  exact h.transfer (fun parts _ h => ⟨parts, hrule h⟩) hrule hrule

end Leaves

/-! ## Whole texts -/

namespace Dialect

variable {dialect : Dialect} {name : String} {source : Source} {text : List Char} {x : Remnant}

/-- A rule that is derived from a text is derived within every depth that is high enough. -/
theorem exists_derivesIn (source : Source) {a : Answer}
    (hname : name ∈ dialect.rules.map Rule.name)
    (h : Derives dialect.grammar (.rule name) source.chars a) :
    ∃ least, ∀ depth, least ≤ depth →
      DerivesIn dialect.grammar depth (.rule name) source.chars a := by
  have hdefined : dialect.grammar.defines name = true := by
    obtain ⟨rule, hrule⟩ := (linked_of_mem_names hname).2
    rw [Grammar.defines, hrule]
    rfl
  obtain ⟨least, hends⟩ := dialect.settles source.text source.text.size name hdefined
  refine ⟨least, fun depth hdepth => ?_⟩
  have hsettled := hends depth hdepth Unit (Observer.idle Unit) (State.initial ()) (Nat.sub_le _ _)
  have hanswers := answers_run (recordable dialect).toSound source.text (Observer.idle Unit)
    depth (sound_rule hname) (State.initial ()) (Nat.zero_le _)
  obtain ⟨b, hb⟩ : ∃ b, DerivesIn dialect.grammar depth (.rule name) source.chars b := by
    rw [Grammar.setting] at hsettled
    rcases houtcome : Matching.run ⟨source.text, dialect.grammar.rule?, dialect.grammar.isLinked,
      Observer.idle Unit⟩ depth (.rule name) (State.initial ()) with ⟨verdict, last⟩
    rw [houtcome] at hsettled hanswers
    cases hsettled with
    | matched => exact ⟨_, hanswers.2.choose_spec⟩
    | failed => exact ⟨_, hanswers.2⟩
    | fault fault => exact ⟨_, (hanswers.resolve_left (by simp)).2⟩
  rwa [h.deterministic hb.erase]

theorem le_depth (dialect : Dialect) {limit : Int} {depth : Nat} (h : (depth : Int) ≤ limit) :
    depth ≤ (dialect.parser limit).depth := by
  simp only [Parser.depth, parser]
  omega

/-- Whether a rule matches the whole of a text just if something holds: if so, then under every
limit that is high enough, and if not, then under none. -/
def MatchesJust (dialect : Dialect) (name : String) (text : List Char) (P : Prop) : Prop :=
  ∀ filename,
    (P → ∃ least : Int, ∀ limit, least ≤ limit →
      ((dialect.parser limit).isMatch name (.ofChars text filename)).1 = .ok true) ∧
    (¬P → ∀ limit, ((dialect.parser limit).isMatch name (.ofChars text filename)).1 = .ok false)

/-- Whether a text is accepted just if something holds: if so, then under every limit that is high
enough, and if not, then under none. -/
def AcceptsJust (dialect : Dialect) (text : List Char) (P : Prop) : Prop :=
  ∀ filename,
    (P → ∃ least : Int, ∀ limit, least ≤ limit →
      (dialect.parser limit).Accepts (.ofChars text filename)) ∧
    (¬P → ∀ limit, ¬(dialect.parser limit).Accepts (.ofChars text filename))

/-- A rule matches the whole of a text just if it leaves nothing. -/
theorem matchesJust_of_leaves (hname : name ∈ dialect.rules.map Rule.name)
    (h : Leaves dialect.grammar (.rule name) text x) :
    dialect.MatchesJust name text (x = .rest []) := by
  intro filename
  constructor
  · rintro rfl
    obtain ⟨parts, hparts⟩ := h
    obtain ⟨least, hderived⟩ := exists_derivesIn (.ofChars text filename) hname hparts
    refine ⟨least, fun limit hlimit => (isMatch_iff_derivesIn hname).2.mpr ⟨parts, ?_⟩⟩
    exact hderived _ (dialect.le_depth hlimit)
  · intro hx limit
    obtain ⟨⟨answer, hanswer⟩, hiff⟩ :
        (∃ answer, ((dialect.parser limit).isMatch name (.ofChars text filename)).1 = .ok answer) ∧
          (_ ↔ _) := isMatch_iff_derivesIn hname
    cases answer with
    | false => exact hanswer
    | true =>
        obtain ⟨parts, hparts⟩ := hiff.mp hanswer
        exact absurd (h.unique (y := .rest []) ⟨parts, hparts.erase⟩) hx

/-- A text is accepted just if the rule of programs leaves nothing. -/
theorem acceptsJust_of_leaves (h : Leaves dialect.grammar (.rule rootName) text x) :
    dialect.AcceptsJust text (x = .rest []) := by
  intro filename
  constructor
  · rintro rfl
    obtain ⟨parts, hparts⟩ := h
    have hname : rootName ∈ dialect.rules.map Rule.name := by
      cases dialect <;> decide
    obtain ⟨-, tree, rfl⟩ := of_program hparts.toMatch
    obtain ⟨least, hderived⟩ := exists_derivesIn (.ofChars text filename) hname hparts
    exact ⟨least, fun limit hlimit =>
      exists_parse_eq_ok_iff.mpr ⟨tree, hderived _ (dialect.le_depth hlimit)⟩⟩
  · intro hx limit haccepts
    obtain ⟨tree, htree⟩ := exists_parse_eq_ok_iff.mp haccepts
    exact hx (h.unique ⟨_, htree.erase⟩)

end Dialect

end CartLua
