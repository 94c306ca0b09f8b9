import CartLua.Proofs.Derivation.Shallow
import CartLua.Proofs.Tally.Unwatched

/-!
# Matches that are written down at different places

A failure is silent if nothing was written down before it.  A match is tidy if the matches that it
has written down begin at different places, all of them inside the text that it takes.

A match is tidy if its parts are and what was tried in vain was silent.  A passage says of the
rules of a dialect which of them fail silently and which match tidily, and what this says of a
pattern is read off it as it is for a passage between two dialects.
-/

namespace CartLua

open Dialect

/-- Whether no rule of some name is among the rules that matched. -/
def Tree.Lacks (name : String) (parts : List Tree) : Prop :=
  ∀ n ∈ nodesOfAll parts, n.1.name ≠ name

namespace Tree.Lacks

variable {name : String}

theorem append_iff {parts more : List Tree} :
    Lacks name (parts ++ more) ↔ Lacks name parts ∧ Lacks name more := by
  rw [Lacks, nodesOfAll_append, List.forall_mem_append]
  rfl

theorem node_iff {rule : Rule} {parts : List Tree} :
    Lacks name [.node rule parts] ↔ rule.name ≠ name ∧ Lacks name parts := by
  simp [Lacks, nodesOfAll, nodes]

end Tree.Lacks

namespace Survey

variable {v : Survey} {cue : Cue} {known : Bool} {n : Nat} {p : Pattern}
  {items : List Pattern} {site : Site} {st s middle last : State (List Capture)}
  {P Q R : List Char → Prop}

/-- A rule that matches is written down or not. -/
theorem observed_announce (st : State (List Capture)) (rule : Rule) (begin : Nat) :
    (st.announce v.setting.observer rule begin).observed = st.observed ∨
      (st.announce v.setting.observer rule begin).observed =
        st.capture rule begin :: st.observed := by
  change (State.announce st (.tally v.watched) rule begin).observed = _ ∨
    (State.announce st (.tally v.watched) rule begin).observed = _
  rw [State.announce, Observer.tally]
  dsimp only
  by_cases hwatched : v.watched.contains rule.name = true
  · rw [if_pos hwatched]
    split
    · exact .inr rfl
    · exact .inl rfl
  · rw [if_neg hwatched, ite_self]
    exact .inl rfl

/-- What was written down on the way from one state to another: matches that begin at different
places, all of them between those of the states. -/
structure Adds (st last : State (List Capture)) : Prop where
  le : st.offset ≤ last.offset
  exists_added : ∃ added, last.observed = added ++ st.observed ∧
    (added.map Capture.start).Nodup ∧
      ∀ c ∈ added, (st.offset : Int) ≤ c.start ∧ c.start < last.offset

namespace Adds

theorem of_observed_eq (hle : st.offset ≤ last.offset) (h : last.observed = st.observed) :
    Adds st last :=
  ⟨hle, [], h, List.nodup_nil, fun _ hc => absurd hc List.not_mem_nil⟩

theorem congr_left (h : Adds s last) (hoffset : s.offset = st.offset)
    (hobserved : s.observed = st.observed) : Adds st last := by
  obtain ⟨hle, added, hadded, hbounds⟩ := h
  rw [hoffset] at hle hbounds
  exact ⟨hle, added, hobserved ▸ hadded, hbounds⟩

theorem congr_right (h : Adds st s) (hoffset : s.offset = last.offset)
    (hobserved : s.observed = last.observed) : Adds st last := by
  obtain ⟨hle, added, hadded, hbounds⟩ := h
  rw [hoffset] at hle hbounds
  exact ⟨hle, added, hobserved ▸ hadded, hbounds⟩

/-- What two stretches of the text add is found at different places. -/
theorem trans (h : Adds st middle) (hlater : Adds middle last) : Adds st last := by
  obtain ⟨hle, first, hfirst, hnodup, hbounds⟩ := h
  obtain ⟨hle', others, hothers, hnodup', hbounds'⟩ := hlater
  refine ⟨Nat.le_trans hle hle', others ++ first, ?_, ?_, ?_⟩
  · rw [hothers, hfirst, List.append_assoc]
  · rw [List.map_append, List.nodup_append]
    refine ⟨hnodup', hnodup, ?_⟩
    intro a ha b hb
    obtain ⟨c, hc, rfl⟩ := List.mem_map.mp ha
    obtain ⟨d, hd, rfl⟩ := List.mem_map.mp hb
    have hc' := hbounds' c hc
    have hd' := hbounds d hd
    omega
  · intro c hc
    rcases List.mem_append.mp hc with hc | hc
    · have hc' := hbounds' c hc
      omega
    · have hc' := hbounds c hc
      omega

/-- A rule that is written down begins before what was written down after its first token. -/
theorem announce {rule : Rule} (h : Adds middle s) (hanchored : rule.anchored = false)
    (hlt : st.offset < middle.offset) (hobserved : middle.observed = st.observed) :
    Adds st ((s.leave rule).announce v.setting.observer rule st.offset) := by
  obtain ⟨hle, added, hadded, hnodup, hbounds⟩ := h
  rw [hobserved] at hadded
  have hstart : ((s.leave rule).capture rule st.offset).start = st.offset := by
    rw [State.capture, hanchored]
    rfl
  refine ⟨by rw [State.offset_announce, State.offset_leave]; omega, ?_⟩
  rw [State.offset_announce, State.offset_leave]
  rcases observed_announce (v := v) (s.leave rule) rule st.offset with heq | heq
  · refine ⟨added, heq.trans hadded, hnodup, fun c hc => ?_⟩
    have hc' := hbounds c hc
    omega
  · refine ⟨(s.leave rule).capture rule st.offset :: added, ?_, ?_, ?_⟩
    · exact heq.trans (congrArg (_ :: ·) hadded)
    · rw [List.map_cons, List.nodup_cons, hstart]
      refine ⟨fun hmem => ?_, hnodup⟩
      obtain ⟨c, hc, heq⟩ := List.mem_map.mp hmem
      have hc' := hbounds c hc
      omega
    · intro c hc
      rcases List.mem_cons.mp hc with rfl | hc
      · rw [hstart]
        omega
      · have hc' := hbounds c hc
        omega

end Adds

/-- Any text. -/
def Anywhere : List Char → Prop := fun _ => True

variable (v)

/-- What a cue says of a text where it is known. -/
def GoesOn (cue : Cue) (known : Bool) : List Char → Prop :=
  fun s => known = true → cue.Next v.dialect.grammar s

/-- Whether a pattern that fails at certain texts has written nothing down. -/
def Silent (P : List Char → Prop) (n : Nat) (p : Pattern) : Prop :=
  ∀ st last, v.Fails n p st last → P (v.rest st.offset) → last.observed = st.observed

/-- Whether a pattern that matches at certain texts has written nothing down, and certain texts
are left. -/
def Quiet (P : List Char → Prop) (n : Nat) (p : Pattern) (Q : List Char → Prop) : Prop :=
  ∀ st last parts, v.Succeeds n p st last parts → P (v.rest st.offset) →
    last.observed = st.observed ∧ Q (v.rest last.offset)

/-- Whether a pattern that matches without a short `if` is tidy, if certain texts are left. -/
def Tidy (n : Nat) (p : Pattern) (Q : List Char → Prop) : Prop :=
  ∀ st last parts, v.Succeeds n p st last parts → Tree.Lacks shortIfStatement.name parts →
    Q (v.rest last.offset) → Adds st last

/-- Whether a pattern that matches somewhere only does so at certain texts, if certain texts are
left. -/
def Shows (p : Pattern) (P Q : List Char → Prop) : Prop :=
  ∀ s parts rest, Derives v.dialect.grammar p s (.matched parts rest) → Q rest → P s

variable {v}

/-- Where nothing is known the text may go on in any way. -/
theorem goesOn_false : v.GoesOn cue false = Anywhere := by
  funext s
  exact propext ⟨fun _ => trivial, by rintro - ⟨⟩⟩

theorem shows_of_leads (hcue : cue.fits v.dialect = true) (hp : p.leads cue known = true) :
    v.Shows p (v.GoesOn cue true) (v.GoesOn cue known) :=
  fun _ _ _ h hknown _ => next_of_leads hcue hp h hknown

theorem shows_anywhere : v.Shows p Anywhere Q := fun _ _ _ _ _ => trivial

theorem shows_nil : v.Shows (.seq []) Q Q := by
  intro s parts rest h hQ
  cases h
  exact hQ

namespace Silent

theorem mono (h : v.Silent Q n p) (hPQ : ∀ s, P s → Q s) : v.Silent P n p :=
  fun st last hfails hP => h st last hfails (hPQ _ hP)

theorem anywhere (h : v.Silent Anywhere n p) : v.Silent P n p := h.mono fun _ _ => trivial

theorem zero : v.Silent P 0 p := fun _ _ h => nomatch h.derives

theorem of_not_failed (h : ∀ s, ¬Derives v.dialect.grammar p s .failed) : v.Silent P n p :=
  fun _ _ hfails => absurd hfails.derives.erase (h _)

theorem of_outgrows (m : Nat) (hp : p.outgrows v.dialect m = true) (h : m < n → v.Silent P n p) :
    v.Silent P n p :=
  fun st last hfails => h (hfails.derives.lt_of_outgrows m hp) st last hfails

theorem of_barren {names : List String} (hnames : v.Barren names)
    (hp : p.usesOnly names = true) : v.Silent P n p :=
  fun _ _ h _ => hnames.observed_eq_of_fails hp h

/-- A sequence fails silently with its first item, or after one that is quiet. -/
theorem seq_cons (hfirst : v.Silent P n p) (hquiet : v.Quiet P n p Q)
    (hothers : v.Silent Q (n + 1) (.seq items)) : v.Silent P (n + 1) (.seq (p :: items)) := by
  intro st last h hP
  rcases h.of_seq_cons with ⟨next, hfails, heq⟩ | ⟨middle, first, next, hmatch, hfails, heq⟩
  · exact heq.trans (hfirst st next hfails hP)
  · obtain ⟨hsame, hQ⟩ := hquiet st middle first hmatch hP
    exact heq.trans ((hothers middle next hfails hQ).trans hsame)

/-- A sequence fails silently if its first item does and the others never fail. -/
theorem seq_last (hfirst : v.Silent P n p)
    (hothers : ∀ s, ¬Derives v.dialect.grammar (.seq items) s .failed) :
    v.Silent P (n + 1) (.seq (p :: items)) := by
  intro st last h hP
  rcases h.of_seq_cons with ⟨next, hfails, heq⟩ | ⟨middle, first, next, -, hfails, -⟩
  · exact heq.trans (hfirst st next hfails hP)
  · exact absurd hfails.derives.erase (hothers _)

/-- A sequence fails silently where its first item fails silently and cannot match. -/
theorem seq_first (hfirst : v.Silent P n p) (hnone : v.Shows p (fun s => ¬P s) Anywhere) :
    v.Silent P (n + 1) (.seq (p :: items)) := by
  intro st last h hP
  rcases h.of_seq_cons with ⟨next, hfails, heq⟩ | ⟨middle, first, next, hmatch, -, -⟩
  · exact heq.trans (hfirst st next hfails hP)
  · exact absurd hP (hnone _ _ _ hmatch.derives.erase trivial)

theorem seq_of_first (hfirst : ∀ m < n, v.Silent P m p)
    (hnone : v.Shows p (fun s => ¬P s) Anywhere) : v.Silent P n (.seq (p :: items)) := by
  cases n with
  | zero => exact zero
  | succ n => exact (hfirst n (Nat.lt_succ_self n)).seq_first hnone

theorem choice_nil : v.Silent P (n + 1) (.choice []) := by
  intro st last h _
  rw [h.of_choice_nil]

theorem choice_cons (hfirst : v.Silent P n p) (hothers : v.Silent P (n + 1) (.choice items)) :
    v.Silent P (n + 1) (.choice (p :: items)) := by
  intro st last h hP
  obtain ⟨next, hfails, hrest⟩ := h.of_choice_cons
  exact (hothers _ last hrest hP).trans (hfirst st next hfails hP)

theorem choice (h : ∀ item ∈ items, v.Silent P n item) : v.Silent P (n + 1) (.choice items) := by
  induction items with
  | nil => exact choice_nil
  | cons item items ih =>
      exact choice_cons (h item List.mem_cons_self) (ih fun q hq => h q (List.mem_cons_of_mem _ hq))

theorem plus (h : v.Silent P n p) : v.Silent P (n + 1) (.plus site p) :=
  fun st last hfails hP => h st last hfails.of_plus hP

theorem rule {rule : Rule} (hrule : rule ∈ v.dialect.rules) (h : v.Silent P n rule.body) :
    v.Silent P (n + 1) (.rule rule.name) := by
  intro st last hfails hP
  obtain ⟨found, next, hfound, hbody, heq⟩ := hfails.of_rule
  cases (rule?_grammar hrule).symm.trans hfound
  exact heq.trans (h (st.enter rule) next hbody hP)

theorem ref {name : String} (h : v.Silent P n (.rule name)) :
    v.Silent P (n + 1) (.ref site name) :=
  fun st last hfails hP => h st last hfails.of_ref hP

/-- A rule that is called fails silently if its body does. -/
theorem call {rule : Rule} (hrule : rule ∈ v.dialect.rules)
    (h : ∀ m, m + 2 = n → v.Silent P m rule.body) : v.Silent P n (.call rule.name) := by
  rcases n with _ | _ | n
  · exact .zero
  · exact .ref .zero
  · exact .ref (.rule hrule (h n rfl))

end Silent

namespace Quiet

/-- What writes nothing down leaves what it is shown to leave. -/
theorem of_barren {names : List String} (hnames : v.Barren names) (hp : p.usesOnly names = true)
    (hleft : ∀ s parts rest, P s → Derives v.dialect.grammar p s (.matched parts rest) → Q rest) :
    v.Quiet P n p Q :=
  fun _ _ _ h hP => ⟨hnames.observed_eq hp h, hleft _ _ _ hP h.derives.erase⟩

/-- A loop whose body cannot match has no rounds. -/
theorem star (hround : v.Silent P n p) (hnone : v.Shows p (fun s => ¬P s) Anywhere) :
    v.Quiet P (n + 1) (.star site p) P := by
  intro st last parts h hP
  rcases h.of_star with ⟨next, hfails, rfl, -⟩ | ⟨middle, first, others, hmatch, -, -⟩
  · exact ⟨hround st next hfails hP, hP⟩
  · exact absurd hP (hnone _ _ _ hmatch.derives.erase trivial)

end Quiet

namespace Tidy

theorem anywhere (h : v.Tidy n p Anywhere) : v.Tidy n p Q :=
  fun st last parts hmatch hlacks _ => h st last parts hmatch hlacks trivial

theorem zero : v.Tidy 0 p Q := fun _ _ _ h => nomatch h.derives

theorem of_outgrows (m : Nat) (hp : p.outgrows v.dialect m = true) (h : m < n → v.Tidy n p Q) :
    v.Tidy n p Q :=
  fun st last parts hmatch => h (hmatch.derives.lt_of_outgrows m hp) st last parts hmatch

theorem of_barren {names : List String} (hnames : v.Barren names)
    (hp : p.usesOnly names = true) : v.Tidy n p Q :=
  fun _ _ _ h _ _ => .of_observed_eq h.offset_le (hnames.observed_eq hp h)

theorem seq_nil : v.Tidy (n + 1) (.seq []) Q := by
  intro st last parts h _ _
  rw [h.of_seq_nil]
  exact .of_observed_eq (Nat.le_refl _) rfl

/-- A sequence is tidy if its first item is, before what the others show, and the others are. -/
theorem seq_cons (hfirst : v.Tidy n p P) (hshows : v.Shows (.seq items) P Q)
    (hothers : v.Tidy (n + 1) (.seq items) Q) : v.Tidy (n + 1) (.seq (p :: items)) Q := by
  intro st last parts h hlacks hQ
  obtain ⟨middle, first, others, hmatch, hrest, rfl⟩ := h.of_seq_cons
  obtain ⟨hlacksFirst, hlacksOthers⟩ := Tree.Lacks.append_iff.mp hlacks
  have hP := hshows _ _ _ hrest.derives.erase hQ
  exact (hfirst st middle first hmatch hlacksFirst hP).trans
    (hothers middle last others hrest hlacksOthers hQ)

theorem choice_nil : v.Tidy (n + 1) (.choice []) Q :=
  fun _ _ _ h => nomatch h.derives

/-- A choice is tidy if its alternatives are and the first one fails silently where others
match. -/
theorem choice_cons (hfirst : v.Tidy n p Q) (hsilent : v.Silent P n p)
    (hshows : v.Shows (.choice items) P Anywhere) (hothers : v.Tidy (n + 1) (.choice items) Q) :
    v.Tidy (n + 1) (.choice (p :: items)) Q := by
  intro st last parts h hlacks hQ
  rcases h.of_choice_cons with hmatch | ⟨next, hfails, hrest⟩
  · exact hfirst st last parts hmatch hlacks hQ
  · have hP := hshows _ _ _ hrest.derives.erase trivial
    exact (hothers _ last parts hrest hlacks hQ).congr_left rfl (hsilent st next hfails hP)

/-- A choice in two parts is tidy if both are and the first one fails silently where the second
one matches. -/
theorem choice_append {more : List Pattern} (hitems : v.Tidy (n + 1) (.choice items) Q)
    (hsilent : v.Silent P (n + 1) (.choice items)) (hshows : v.Shows (.choice more) P Anywhere)
    (hmore : v.Tidy (n + 1) (.choice more) Q) : v.Tidy (n + 1) (.choice (items ++ more)) Q := by
  intro st last parts h hlacks hQ
  rcases h.of_choice_append with hmatch | ⟨next, hfails, hrest⟩
  · exact hitems st last parts hmatch hlacks hQ
  · have hP := hshows _ _ _ hrest.derives.erase trivial
    rw [hfails.back] at hP
    exact (hmore next last parts hrest hlacks hQ).congr_left hfails.back
      (hsilent st next hfails hP)

/-- Alternatives that only match with a short `if` need not be tidy. -/
theorem choice_append_shortIf {more : List Pattern} (hitems : v.Tidy (n + 1) (.choice items) Q)
    (hmore : ∀ s parts rest, Derives v.dialect.grammar (.choice more) s (.matched parts rest) →
      ¬Tree.Lacks shortIfStatement.name parts) :
    v.Tidy (n + 1) (.choice (items ++ more)) Q := by
  intro st last parts h hlacks hQ
  rcases h.of_choice_append with hmatch | ⟨next, -, hrest⟩
  · exact hitems st last parts hmatch hlacks hQ
  · exact absurd hlacks (hmore _ _ _ hrest.derives.erase)

/-- A loop is tidy if its rounds are and the round that ends it fails silently. -/
theorem star (hsilent : v.Silent Q n p) (hround : v.Tidy n p P)
    (hshows : v.Shows (.star site p) P Q) : v.Tidy (n + 1) (.star site p) Q := by
  intro st last parts h hlacks hQ
  revert hlacks
  apply h.star_induction
  · rintro s next hfails rfl -
    exact .of_observed_eq (Nat.le_refl _) (hsilent s next hfails hQ)
  · intro s middle first others hfirst hothers ih hlacks
    obtain ⟨hlacksFirst, hlacksOthers⟩ := Tree.Lacks.append_iff.mp hlacks
    have hP := hshows _ _ _ hothers.derives.erase hQ
    exact (hround s middle first hfirst hlacksFirst hP).trans (ih hlacksOthers)

theorem plus (hsilent : v.Silent Q n p) (hround : v.Tidy n p P)
    (hshows : v.Shows (.star site p) P Q) : v.Tidy (n + 1) (.plus site p) Q := by
  intro st last parts h hlacks hQ
  obtain ⟨middle, first, others, hfirst, hothers, rfl⟩ := h.of_plus
  obtain ⟨hlacksFirst, hlacksOthers⟩ := Tree.Lacks.append_iff.mp hlacks
  have hP := hshows _ _ _ hothers.derives.erase hQ
  exact (hround st middle first hfirst hlacksFirst hP).trans
    (star hsilent hround hshows middle last others hothers hlacksOthers hQ)

theorem opt (hsilent : v.Silent Q n p) (hinner : v.Tidy n p Q) : v.Tidy (n + 1) (.opt p) Q := by
  intro st last parts h hlacks hQ
  rcases h.of_opt with hmatch | ⟨next, hfails, rfl⟩
  · exact hinner st last parts hmatch hlacks hQ
  · exact .of_observed_eq (Nat.le_refl _) (hsilent st next hfails hQ)

/-- A loop that goes on until a stop is tidy if its rounds and its stop are, and the stop fails
silently before each round. -/
theorem repeatUntil {stop : Pattern} (hsilent : v.Silent Anywhere n stop)
    (hstop : v.Tidy n stop Q) (hround : v.Tidy n p P)
    (hshows : v.Shows (.repeatUntil site stop p) P Q) :
    v.Tidy (n + 1) (.repeatUntil site stop p) Q := by
  intro st last parts h hlacks hQ
  revert hlacks
  apply h.until_induction
  · intro s parts hhere hlacks
    exact hstop s last parts hhere hlacks hQ
  · intro s next middle first others hfails hfirst hothers ih hlacks
    obtain ⟨hlacksFirst, hlacksOthers⟩ := Tree.Lacks.append_iff.mp hlacks
    have hP := hshows _ _ _ hothers.derives.erase hQ
    have hhere := (hround next middle first hfirst hlacksFirst hP).congr_left hfails.back
      (hsilent s next hfails trivial)
    exact hhere.trans (ih hlacksOthers)

theorem must (h : v.Tidy n p Q) : v.Tidy (n + 1) (.must p) Q :=
  fun st last parts hmatch => h st last parts hmatch.of_must

theorem ref {name : String} (h : v.Tidy n (.rule name) Q) : v.Tidy (n + 1) (.ref site name) Q :=
  fun st last parts hmatch => h st last parts hmatch.of_ref

/-- A rule that is not watched is tidy if its body is. -/
theorem rule {rule : Rule} (hrule : rule ∈ v.dialect.rules)
    (hwatched : v.watched.contains rule.name = false) (h : v.Tidy n rule.body Q) :
    v.Tidy (n + 1) (.rule rule.name) Q := by
  intro st last parts hmatch hlacks hQ
  obtain ⟨found, middle, inner, hfound, hbody, rfl, rfl⟩ := hmatch.of_rule
  cases (rule?_grammar hrule).symm.trans hfound
  rw [State.offset_announce, State.offset_leave] at hQ
  have hinner : Adds st middle :=
    (h _ middle inner hbody (Tree.Lacks.node_iff.mp hlacks).2 hQ).congr_left rfl rfl
  apply hinner.congr_right
  · rw [State.offset_announce, State.offset_leave]
  · rw [State.announce, onMatch_of_not_watched hwatched, ite_self]
    rfl

/-- A rule that begins with a token is tidy if the rest of it is: what is written down inside it
begins after its token. -/
theorem rule_after_token {rule : Rule} {names : List String} (hrule : rule ∈ v.dialect.rules)
    (hanchored : rule.anchored = false) (hbody : rule.body = .seq (p :: items))
    (hnames : v.Barren names) (hp : p.usesOnly names = true)
    (htakes : p.nullable (recordable v.dialect).toSound.traits.nullable = false)
    (h : v.Tidy n (.seq items) Q) : v.Tidy (n + 1) (.rule rule.name) Q := by
  intro st last parts hmatch hlacks hQ
  obtain ⟨found, middle, inner, hfound, hinner, rfl, rfl⟩ := hmatch.of_rule
  cases (rule?_grammar hrule).symm.trans hfound
  rw [State.offset_announce, State.offset_leave] at hQ
  rw [hbody] at hinner
  obtain ⟨-, hlacksInner⟩ := Tree.Lacks.node_iff.mp hlacks
  cases n with
  | zero => nomatch hinner.derives
  | succ n =>
      obtain ⟨after, first, others, htoken, hrest, rfl⟩ := hinner.of_seq_cons
      obtain ⟨-, hlacksRest⟩ := Tree.Lacks.append_iff.mp hlacksInner
      have hobserved : after.observed = (st.enter rule).observed := hnames.observed_eq hp htoken
      exact (h after middle others hrest hlacksRest hQ).announce hanchored
        (htoken.offset_lt htakes) hobserved

end Tidy

/-! ## Reading a passage -/

variable (v) in
/-- What a passage says of a dialect whatever the depth. -/
structure Suits (k : Passage) : Prop where
  suits : k.Suits v.dialect v.dialect
  barren : v.Barren k.shared

variable (v) in
/-- Whether the rules that a passage lists fail silently and match tidily within a depth. -/
structure Follows (k : Passage) (depth : Nat) : Prop extends v.Suits k where
  refusing : ∀ n < depth, ∀ name, k.refusing.contains name = true →
    v.Silent Anywhere n (.rule name)
  sealed : ∀ n < depth, ∀ name, k.sealed.contains name = true →
    v.Tidy n (.rule name) Anywhere
  passing : ∀ n < depth, ∀ name, k.passing.contains name = true →
    v.Tidy n (.rule name) (v.GoesOn k.cue true)

variable {k : Passage} {depth : Nat}

namespace Suits

theorem silent_of_neverFails (hsuits : v.Suits k) (hp : p.neverFails k.unfailing = true) :
    v.Silent P n p :=
  .of_not_failed fun _ => hsuits.suits.not_failed hp

theorem silent (hsuits : v.Suits k) (hp : p.usesOnly k.shared = true) : v.Silent P n p :=
  .of_barren hsuits.barren hp

theorem tidy (hsuits : v.Suits k) (hp : p.usesOnly k.shared = true) : v.Tidy n p Q :=
  .of_barren hsuits.barren hp

theorem shows (hsuits : v.Suits k) (hp : p.leads k.cue known = true) :
    v.Shows p (v.GoesOn k.cue true) (v.GoesOn k.cue known) :=
  shows_of_leads hsuits.suits.cue hp

end Suits

namespace Follows

mutual

/-- A pattern fails silently if the passage says so. -/
theorem silent (h : v.Follows k depth) :
    (p : Pattern) → (n : Nat) → n ≤ depth → p.refuses k = true → v.Silent Anywhere n p
  | _, 0, _, _ => .zero
  | .terminal t, _ + 1, _, _ => h.toSuits.silent (p := .terminal t) rfl
  | .seq items, n + 1, hn, hp => h.silentInOrder items n hn hp
  | .choice items, n + 1, hn, hp => h.allSilent items n hn hp
  | .star .., _ + 1, _, _ => h.silent_of_neverFails rfl
  | .plus _ body, n + 1, hn, hp => .plus (h.silent body n (by omega) hp)
  | .opt _, _ + 1, _, _ => h.silent_of_neverFails rfl
  | .atMost .., _ + 1, _, _ => h.silent_of_neverFails rfl
  | .lookahead negated body, _ + 1, _, hp => h.toSuits.silent (p := .lookahead negated body) hp
  | .skipTo stop, _ + 1, _, hp => h.toSuits.silent (p := .skipTo stop) hp
  | .repeatUntil site stop body, _ + 1, _, hp =>
      h.toSuits.silent (p := .repeatUntil site stop body) hp
  | .must _, _ + 1, _, _ => h.silent_of_neverFails rfl
  | .rule name, _ + 1, _, hp => h.toSuits.silent (p := .rule name) hp
  | .ref site name, n + 1, hn, hp => by
      simp only [Pattern.refuses, Bool.or_eq_true] at hp
      rcases hp with hp | hp
      · exact h.toSuits.silent (p := .ref site name) hp
      · exact .ref (h.refusing n (by omega) name hp)

theorem silentInOrder (h : v.Follows k depth) :
    (items : List Pattern) → (n : Nat) → n + 1 ≤ depth → Pattern.refusesInOrder k items = true →
      v.Silent Anywhere (n + 1) (.seq items)
  | [], _, _, _ => .of_not_failed fun _ h => nomatch h
  | item :: items, n, hn, hp => by
      simp only [Pattern.refusesInOrder, Bool.and_eq_true, Bool.or_eq_true] at hp
      have hitem := h.silent item n (by omega) hp.1
      rcases hp.2 with hnever | ⟨hshared, hitems⟩
      · exact hitem.seq_last fun _ => h.suits.not_failed (p := .seq items) hnever
      · exact hitem.seq_cons (.of_barren h.barren hshared fun _ _ _ _ _ => trivial)
          (h.silentInOrder items n hn hitems)

theorem allSilent (h : v.Follows k depth) :
    (items : List Pattern) → (n : Nat) → n + 1 ≤ depth → Pattern.allRefuse k items = true →
      v.Silent Anywhere (n + 1) (.choice items)
  | [], _, _, _ => .choice_nil
  | item :: items, n, hn, hp => by
      simp only [Pattern.allRefuse, Bool.and_eq_true] at hp
      exact .choice_cons (h.silent item n (by omega) hp.1) (h.allSilent items n hn hp.2)

end

mutual

/-- A pattern matches tidily if the passage says so. -/
theorem tidy (h : v.Follows k depth) :
    (p : Pattern) → (known : Bool) → (n : Nat) → n ≤ depth → p.carries k known = true →
      v.Tidy n p (v.GoesOn k.cue known)
  | _, _, 0, _, _ => .zero
  | .terminal t, _, _ + 1, _, _ => h.toSuits.tidy (p := .terminal t) rfl
  | .seq items, known, n + 1, hn, hp => h.tidyInOrder items known n hn hp
  | .choice items, known, n + 1, hn, hp => h.tidyInTurn items known n hn hp
  | .star site body, known, n + 1, hn, hp => by
      simp only [Pattern.carries, Bool.and_eq_true, Bool.or_eq_true] at hp
      have hsilent := h.silent body n (by omega) hp.1
      rcases hp.2 with hbody | ⟨⟨rfl, hbody⟩, hleads⟩
      · exact .star hsilent.anywhere (h.tidy body false n (by omega) hbody)
          (goesOn_false ▸ shows_anywhere)
      · exact .star hsilent.anywhere (h.tidy body true n (by omega) hbody)
          (h.shows (p := .star site body) hleads)
  | .plus site body, known, n + 1, hn, hp => by
      simp only [Pattern.carries, Bool.and_eq_true, Bool.or_eq_true] at hp
      have hsilent := h.silent body n (by omega) hp.1
      rcases hp.2 with hbody | ⟨⟨rfl, hbody⟩, hleads⟩
      · exact .plus hsilent.anywhere (h.tidy body false n (by omega) hbody)
          (goesOn_false ▸ shows_anywhere)
      · exact .plus hsilent.anywhere (h.tidy body true n (by omega) hbody)
          (h.shows (p := .star site body) hleads)
  | .opt body, known, n + 1, hn, hp => by
      simp only [Pattern.carries, Bool.and_eq_true] at hp
      exact .opt (h.silent body n (by omega) hp.1).anywhere (h.tidy body known n (by omega) hp.2)
  | .atMost count body, _, _ + 1, _, hp => h.toSuits.tidy (p := .atMost count body) hp
  | .lookahead negated body, _, _ + 1, _, hp => h.toSuits.tidy (p := .lookahead negated body) hp
  | .skipTo stop, _, _ + 1, _, hp => h.toSuits.tidy (p := .skipTo stop) hp
  | .repeatUntil site stop body, known, n + 1, hn, hp => by
      simp only [Pattern.carries, Bool.and_eq_true, Bool.or_eq_true] at hp
      have hsilent := h.silent stop n (by omega) hp.1.1
      have hstop := h.tidy stop known n (by omega) hp.1.2
      rcases hp.2 with hbody | ⟨⟨hbody, hstopLeads⟩, hbodyLeads⟩
      · exact .repeatUntil hsilent hstop (h.tidy body false n (by omega) hbody)
          (goesOn_false ▸ shows_anywhere)
      · apply Tidy.repeatUntil hsilent hstop (h.tidy body true n (by omega) hbody)
        apply h.shows (p := .repeatUntil site stop body)
        rw [Pattern.leads, hstopLeads, hbodyLeads]
        rfl
  | .must body, known, n + 1, hn, hp => .must (h.tidy body known n (by omega) hp)
  | .rule name, _, _ + 1, _, hp => h.toSuits.tidy (p := .rule name) hp
  | .ref site name, known, n + 1, hn, hp => by
      simp only [Pattern.carries, Bool.or_eq_true, Bool.and_eq_true] at hp
      rcases hp with (hp | hp) | ⟨rfl, hp⟩
      · exact h.toSuits.tidy (p := .ref site name) hp
      · exact .ref (h.sealed n (by omega) name hp).anywhere
      · exact .ref (h.passing n (by omega) name hp)

theorem tidyInOrder (h : v.Follows k depth) :
    (items : List Pattern) → (known : Bool) → (n : Nat) → n + 1 ≤ depth →
      Pattern.carriesInOrder k known items = true →
        v.Tidy (n + 1) (.seq items) (v.GoesOn k.cue known)
  | [], _, _, _, _ => .seq_nil
  | item :: items, known, n, hn, hp => by
      simp only [Pattern.carriesInOrder, Bool.and_eq_true, Bool.or_eq_true] at hp
      have hothers := h.tidyInOrder items known n hn hp.2
      rcases hp.1 with hitem | ⟨hitem, hleads⟩
      · exact .seq_cons (h.tidy item false n (by omega) hitem) (goesOn_false ▸ shows_anywhere)
          hothers
      · exact .seq_cons (h.tidy item true n (by omega) hitem) (h.shows (p := .seq items) hleads)
          hothers

theorem tidyInTurn (h : v.Follows k depth) :
    (items : List Pattern) → (known : Bool) → (n : Nat) → n + 1 ≤ depth →
      Pattern.carriesInTurn k known items = true →
        v.Tidy (n + 1) (.choice items) (v.GoesOn k.cue known)
  | [], _, _, _, _ => .choice_nil
  | item :: items, known, n, hn, hp => by
      simp only [Pattern.carriesInTurn, Bool.and_eq_true, Bool.or_eq_true] at hp
      have hitem := h.tidy item known n (by omega) hp.1.1
      have hothers := h.tidyInTurn items known n hn hp.2
      rcases hp.1.2 with hlast | hrefuses
      · obtain rfl := List.isEmpty_iff.mp hlast
        have hnever : v.Silent (fun _ => False) n item := fun _ _ _ hfalse => hfalse.elim
        exact hitem.choice_cons hnever (fun _ _ _ hnone _ => nomatch hnone) hothers
      · exact hitem.choice_cons (h.silent item n (by omega) hrefuses) shows_anywhere hothers

end

end Follows

end Survey

end CartLua
