import CartLua.Dialect.Grammar
import CartLua.Occurrence.Recorder
import CartLua.Proofs.Matching.Loops

/-!
# Observers do not influence matching

A match only reads the cursor.  What else a state holds (the end of the last token, the
rules and anchors around it, the furthest failure, the counters and what the observer
keeps) is written along the way and never decides what happens next.  Two matches of one
pattern from the same offset therefore end alike, whatever observers are attached and
whatever their states hold.
-/

namespace CartLua

/-- Whether two matches were stopped by the same thing.  Where a mismatch is reported and
which rules were around it is told by the state, so that may differ. -/
inductive Stop.Alike : Stop → Stop → Prop
  | mismatch (expected : Option String) (offset offset' : Nat) (context context' : List String) :
      Alike (.fault (.mismatch expected offset context))
        (.fault (.mismatch expected offset' context'))
  | unclosedBracket (level offset : Nat) (context context' : List String) :
      Alike (.fault (.unclosedBracket level offset context))
        (.fault (.unclosedBracket level offset context'))
  | tooDeep : Alike .tooDeep .tooDeep
  | endless : Alike .endless .endless
  | undefinedRule (name : String) : Alike (.undefinedRule name) (.undefinedRule name)
  | unlinked (name : String) : Alike (.unlinked name) (.unlinked name)

variable {σ τ : Type}

/-- Whether two matches end alike and at the same offset. -/
inductive Outcome.Alike : Outcome σ → Outcome τ → Prop
  | matched {a : State σ} {b : State τ} (offset_eq : a.offset = b.offset) :
      Alike ⟨.matched, a⟩ ⟨.matched, b⟩
  | failed {a : State σ} {b : State τ} (offset_eq : a.offset = b.offset) :
      Alike ⟨.failed, a⟩ ⟨.failed, b⟩
  | stopped {a : State σ} {b : State τ} {s t : Stop} (stop : s.Alike t)
      (offset_eq : a.offset = b.offset) : Alike ⟨.stopped s, a⟩ ⟨.stopped t, b⟩

namespace State

@[simp]
theorem offset_advance (st : State σ) (count : Nat) :
    (st.advance count).offset = st.offset + count := rfl

@[simp]
theorem offset_noteFailure (st : State σ) : st.noteFailure.offset = st.offset := by
  rw [noteFailure]
  split <;> rfl

@[simp]
theorem offset_returnTo (st : State σ) (observer : Observer σ) (origin : State σ) :
    (st.returnTo observer origin).offset = origin.offset := rfl

@[simp]
theorem offset_enter (st : State σ) (rule : Rule) : (st.enter rule).offset = st.offset := rfl

@[simp]
theorem offset_leave (st : State σ) (rule : Rule) : (st.leave rule).offset = st.offset := rfl

@[simp]
theorem offset_enterLookahead (st : State σ) : st.enterLookahead.offset = st.offset := rfl

@[simp]
theorem offset_announce (st : State σ) (observer : Observer σ) (rule : Rule) (begin : Nat) :
    (st.announce observer rule begin).offset = st.offset := by
  rw [announce]
  split
  · split <;> rfl
  · rfl

/-- The fault of a committed part expects the same pattern in any two states. -/
theorem mismatch_alike (a : State σ) (b : State τ) (expected : Option String) :
    Stop.Alike (.fault (a.mismatch expected)) (.fault (b.mismatch expected)) := by
  rw [mismatch, mismatch]
  split <;> split <;> exact .mismatch ..

end State

namespace Matching

variable {observer : Observer σ} {other : Observer τ}

/-- Whether two steps end alike from any two states at the same offset. -/
def Alike (f : State σ → Outcome σ) (g : State τ → Outcome τ) : Prop :=
  ∀ (a : State σ) (b : State τ), a.offset = b.offset → (f a).Alike (g b)

theorem terminal_alike (text : Array Char) (t : Terminal) :
    Alike (terminal (σ := σ) text t) (terminal (σ := τ) text t) := by
  intro a b hab
  rw [terminal, terminal, hab]
  cases t.scan text b.offset with
  | take count => exact .matched (by simp [hab])
  | stay => exact .matched hab
  | miss => exact .failed (by simp [hab])
  | unclosed level => exact .stopped (.unclosedBracket level b.offset _ _) hab

theorem sequence_alike {f : Pattern → State σ → Outcome σ} {g : Pattern → State τ → Outcome τ}
    (hstep : ∀ p, Alike (f p) (g p)) {origin : State σ} {origin' : State τ}
    (horigin : origin.offset = origin'.offset) (items : List Pattern) :
    Alike (sequence observer f origin items) (sequence other g origin' items) := by
  induction items with
  | nil => exact fun a b hab => .matched hab
  | cons item items ih =>
      intro a b hab
      have hitem := hstep item a b hab
      rw [sequence, sequence]
      generalize f item a = x at hitem ⊢
      generalize g item b = y at hitem ⊢
      cases hitem with
      | matched h => exact ih _ _ h
      | failed _ => exact .failed horigin
      | stopped hstop h => exact .stopped hstop h

theorem choice_alike {f : Pattern → State σ → Outcome σ} {g : Pattern → State τ → Outcome τ}
    (hstep : ∀ p, Alike (f p) (g p)) {origin : State σ} {origin' : State τ}
    (horigin : origin.offset = origin'.offset) (alternatives : List Pattern) :
    Alike (choice observer f origin alternatives) (choice other g origin' alternatives) := by
  induction alternatives with
  | nil => exact fun a b hab => .failed hab
  | cons alternative alternatives ih =>
      intro a b hab
      have hfirst := hstep alternative a b hab
      rw [choice, choice]
      generalize f alternative a = x at hfirst ⊢
      generalize g alternative b = y at hfirst ⊢
      cases hfirst with
      | matched h => exact .matched h
      | failed _ => exact ih _ _ horigin
      | stopped hstop h => exact .stopped hstop h

variable {f : State σ → Outcome σ} {g : State τ → Outcome τ}

theorem looped_alike {spent : Verdict}
    (hspent : ∀ (a : State σ) (b : State τ), a.offset = b.offset →
      Outcome.Alike ⟨spent, a⟩ ⟨spent, b⟩)
    (hbody : Alike f g) (rounds : Nat) :
    Alike (looped observer spent f rounds) (looped other spent g rounds) := by
  refine looped_induction
    (P := fun rounds a outcome => ∀ b : State τ, a.offset = b.offset →
      outcome.Alike (looped other spent g rounds b))
    hspent ?matched ?failed ?stopped rounds
  case matched =>
    intro _ a _ _ h ih b hab
    have hround := hbody a b hab
    rw [h] at hround
    rw [looped]
    generalize g b = y at hround ⊢
    cases hround with
    | matched hnext => exact ih _ hnext
  case failed =>
    intro _ a _ h b hab
    have hround := hbody a b hab
    rw [h] at hround
    rw [looped]
    generalize g b = y at hround ⊢
    cases hround with
    | failed _ => exact .matched hab
  case stopped =>
    intro _ a _ _ h b hab
    have hround := hbody a b hab
    rw [h] at hround
    rw [looped]
    generalize g b = y at hround ⊢
    cases hround with
    | stopped hstop hnext => exact .stopped hstop hnext

theorem skipped_alike (size : Nat) (hstop : Alike f g) {origin : State σ} {origin' : State τ}
    (horigin : origin.offset = origin'.offset) (rounds : Nat) :
    Alike (skipped observer size f origin rounds) (skipped other size g origin' rounds) := by
  induction rounds with
  | zero => exact fun a b hab => .stopped .endless hab
  | succ rounds ih =>
      intro a b hab
      have hhere := hstop a b hab
      rw [skipped, skipped]
      generalize f a = x at hhere ⊢
      generalize g b = y at hhere ⊢
      cases hhere with
      | matched h => exact .matched h
      | failed h =>
          dsimp only
          rw [h]
          split
          · exact .failed (by simp [horigin])
          · exact ih _ _ (by simp [h])
      | stopped hstop h => exact .stopped hstop h

theorem repeatedUntil_alike {f' : State σ → Outcome σ} {g' : State τ → Outcome τ}
    (hstop : Alike f g) (hbody : Alike f' g') {origin : State σ} {origin' : State τ}
    (horigin : origin.offset = origin'.offset) (rounds : Nat) :
    Alike (repeatedUntil observer f f' origin rounds)
      (repeatedUntil other g g' origin' rounds) := by
  induction rounds with
  | zero => exact fun a b hab => .stopped .endless hab
  | succ rounds ih =>
      intro a b hab
      have hhere := hstop a b hab
      rw [repeatedUntil, repeatedUntil]
      generalize f a = x at hhere ⊢
      generalize g b = y at hhere ⊢
      cases hhere with
      | matched h => exact .matched h
      | @failed a b h =>
          have hround := hbody a b h
          dsimp only
          generalize f' a = x at hround ⊢
          generalize g' b = y at hround ⊢
          cases hround with
          | matched h => exact ih _ _ h
          | failed _ => exact .failed horigin
          | stopped hstop h => exact .stopped hstop h
      | stopped hstop h => exact .stopped hstop h

theorem lookahead_alike (hbody : Alike f g) (negated : Bool) :
    Alike (lookahead observer negated f) (lookahead other negated g) := by
  intro a b hab
  have hinner := hbody a.enterLookahead b.enterLookahead hab
  rw [lookahead, lookahead]
  generalize f a.enterLookahead = x at hinner ⊢
  generalize g b.enterLookahead = y at hinner ⊢
  cases hinner with
  | matched _ =>
      cases negated with
      | false => exact .matched hab
      | true => exact .failed hab
  | failed _ =>
      cases negated with
      | false => exact .failed hab
      | true => exact .matched hab
  | stopped hstop h => exact .stopped hstop h

theorem committed_alike (hbody : Alike f g) (description : Unit → String) :
    Alike (committed f description) (committed g description) := by
  intro a b hab
  have hinner := hbody a b hab
  rw [committed, committed]
  generalize f a = x at hinner ⊢
  generalize g b = y at hinner ⊢
  cases hinner with
  | matched h => exact .matched h
  | failed h => exact .stopped (State.mismatch_alike _ _ _) h
  | stopped hstop h => exact .stopped hstop h

theorem named_alike (hbody : Alike f g) (rule : Rule) :
    Alike (named observer rule f) (named other rule g) := by
  intro a b hab
  have hinner := hbody (a.enter rule) (b.enter rule) hab
  rw [named, named]
  generalize f (a.enter rule) = x at hinner ⊢
  generalize g (b.enter rule) = y at hinner ⊢
  cases hinner with
  | matched h => exact .matched (by simp [h])
  | failed h => exact .failed h
  | stopped hstop h => exact .stopped hstop h

/-- Two matches of one pattern from the same offset end alike. -/
theorem run_alike (text : Array Char) (rule? : String → Option Rule)
    (isLinked : Site → String → Bool) (observer : Observer σ) (other : Observer τ) (depth : Nat)
    (p : Pattern) :
    Alike (run ⟨text, rule?, isLinked, observer⟩ depth p)
      (run ⟨text, rule?, isLinked, other⟩ depth p) := by
  induction depth generalizing p with
  | zero => exact fun a b hab => .stopped .tooDeep hab
  | succ depth ih =>
      intro a b hab
      cases p with
      | terminal t => exact terminal_alike text t a b hab
      | seq items => exact sequence_alike ih hab items a b hab
      | choice alternatives => exact choice_alike ih hab alternatives a b hab
      | star site body =>
          rw [run, run, repeated_eq_looped, repeated_eq_looped]
          exact looped_alike (fun _ _ => .stopped .endless) (ih body) _ a b hab
      | plus site body =>
          have hfirst := ih body a b hab
          simp only [run]
          generalize run ⟨text, rule?, isLinked, observer⟩ depth body a = x at hfirst ⊢
          generalize run ⟨text, rule?, isLinked, other⟩ depth body b = y at hfirst ⊢
          cases hfirst with
          | matched h =>
              dsimp only
              rw [repeated_eq_looped, repeated_eq_looped]
              exact looped_alike (fun _ _ => .stopped .endless) (ih body) _ _ _ h
          | failed h => exact .failed h
          | stopped hstop h => exact .stopped hstop h
      | opt body =>
          rw [run, run, repeatedAtMost_eq_looped, repeatedAtMost_eq_looped]
          exact looped_alike (fun _ _ => .matched) (ih body) 1 a b hab
      | atMost count body =>
          rw [run, run, repeatedAtMost_eq_looped, repeatedAtMost_eq_looped]
          exact looped_alike (fun _ _ => .matched) (ih body) count.toNat a b hab
      | lookahead negated body => exact lookahead_alike (ih body) negated a b hab
      | skipTo stop => exact skipped_alike text.size (ih stop) hab _ a b hab
      | repeatUntil site stop body =>
          exact repeatedUntil_alike (ih stop) (ih body) hab _ a b hab
      | must body => exact committed_alike (ih body) (fun _ => body.describe) a b hab
      | rule name =>
          simp only [run]
          cases rule? name with
          | some rule => exact named_alike (ih rule.body) rule a b hab
          | none => exact .stopped (.undefinedRule name) hab
      | ref site name =>
          simp only [run]
          split
          · exact ih (.rule name) a b hab
          · exact .stopped (.unlinked name) hab

/-- Whether a match goes on for ever when patterns may be nested as deeply as they need. -/
def Diverges (setting : Setting σ) (p : Pattern) (st : State σ) : Prop :=
  ∀ depth, (run setting depth p st).verdict = .stopped .tooDeep ∨
    (run setting depth p st).verdict = .stopped .endless

end Matching

/-- The setting of a match of a grammar. -/
def Grammar.setting (g : Grammar) (text : Array Char) (observer : Observer σ) : Setting σ :=
  ⟨text, g.rule?, g.isLinked, observer⟩

namespace Outcome

/-- Whether two matches have one result for those who asked for them: both match and end
at the same offset, both fail, both stop for one reason that is no error of the text, or
both stop with an error of the same code that names the same rule.  An unclosed bracket is
also reported at the same location. -/
def SameResult (source : Source) (keywords : List String) (x : Outcome σ) (y : Outcome τ) : Prop :=
  (x.verdict = .matched ∧ y.verdict = .matched ∧ x.state.offset = y.state.offset) ∨
    (x.verdict = .failed ∧ y.verdict = .failed) ∨
    (∃ stop, (∀ fault, stop ≠ .fault fault) ∧
      x.verdict = .stopped stop ∧ y.verdict = .stopped stop) ∨
    ∃ f f', x.verdict = .stopped (.fault f) ∧ y.verdict = .stopped (.fault f') ∧
      (ParseError.ofFault source keywords f).code = (ParseError.ofFault source keywords f').code ∧
      (ParseError.ofFault source keywords f).rule = (ParseError.ofFault source keywords f').rule ∧
      ((ParseError.ofFault source keywords f).code = "P002" →
        (ParseError.ofFault source keywords f).location =
          (ParseError.ofFault source keywords f').location)

theorem Alike.sameResult {x : Outcome σ} {y : Outcome τ} (h : x.Alike y) (source : Source)
    (keywords : List String) : x.SameResult source keywords y := by
  cases h with
  | matched hoffset => exact .inl ⟨rfl, rfl, hoffset⟩
  | failed => exact .inr (.inl ⟨rfl, rfl⟩)
  | stopped hstop =>
      apply Or.inr
      apply Or.inr
      cases hstop with
      | mismatch =>
          refine .inr ⟨_, _, rfl, rfl, rfl, rfl, ?_⟩
          intro hcode
          exact absurd hcode (by simp [ParseError.ofFault, ParseError.code])
      | unclosedBracket => exact .inr ⟨_, _, rfl, rfl, rfl, rfl, fun _ => rfl⟩
      | tooDeep => exact .inl ⟨.tooDeep, by simp, rfl, rfl⟩
      | endless => exact .inl ⟨.endless, by simp, rfl, rfl⟩
      | undefinedRule name => exact .inl ⟨.undefinedRule name, by simp, rfl, rfl⟩
      | unlinked name => exact .inl ⟨.unlinked name, by simp, rfl, rfl⟩

/-- Matches that end alike are both cut short, or neither of them is. -/
theorem Alike.unfinished_iff {x : Outcome σ} {y : Outcome τ} (h : x.Alike y) :
    (x.verdict = .stopped .tooDeep ∨ x.verdict = .stopped .endless) ↔
      (y.verdict = .stopped .tooDeep ∨ y.verdict = .stopped .endless) := by
  cases h with
  | matched => simp
  | failed => simp
  | stopped hstop => cases hstop <;> simp

end Outcome

/-- Whatever observers are attached and whatever else the states hold, a rule has one
result at an offset, and goes on for ever in both matches or in neither. -/
theorem observers_do_not_influence (g : Grammar) (source : Source) (observer : Observer σ)
    (other : Observer τ) (name : String) {a : State σ} {b : State τ}
    (hoffset : a.offset = b.offset) :
    (∀ depth, (Matching.run (g.setting source.text observer) depth (.rule name) a).SameResult
      source g.keywords (Matching.run (g.setting source.text other) depth (.rule name) b)) ∧
    (Matching.Diverges (g.setting source.text observer) (.rule name) a ↔
      Matching.Diverges (g.setting source.text other) (.rule name) b) := by
  have halike : ∀ depth,
      (Matching.run (g.setting source.text observer) depth (.rule name) a).Alike
        (Matching.run (g.setting source.text other) depth (.rule name) b) :=
    fun depth => Matching.run_alike source.text g.rule? g.isLinked observer other depth
      (.rule name) a b hoffset
  constructor
  · intro depth
    exact (halike depth).sameResult source g.keywords
  · exact forall_congr' fun depth => (halike depth).unfinished_iff

/-- A recorder that is there from the beginning, and nobody in the middle of padding, a
lookahead and a chain, get one result for a name. -/
theorem observers_do_not_influence_name :
    ∃ b : State Unit, (State.initial Recorder.empty).offset = b.offset ∧
      b.padding = 1 ∧ b.predicates = 1 ∧ b.furthest = 7 ∧ b.anchors = [5] ∧
      ∀ depth, (Matching.run (Dialect.pico8Grammar.setting (Source.ofString "a+=b" "cart").text
          (Recorder.observer (.ofString "a+=b" "cart"))) depth (.rule "name")
          (State.initial Recorder.empty)).SameResult (.ofString "a+=b" "cart")
        Dialect.pico8Grammar.keywords
        (Matching.run (Dialect.pico8Grammar.setting (Source.ofString "a+=b" "cart").text
          (Observer.idle Unit)) depth (.rule "name") b) :=
  ⟨{ State.initial () with
      padding := 1, predicates := 1, quiet := 1, furthest := 7, anchors := [5] },
    rfl, rfl, rfl, rfl, rfl,
      (observers_do_not_influence Dialect.pico8Grammar (.ofString "a+=b" "cart")
        (Recorder.observer (.ofString "a+=b" "cart")) (Observer.idle Unit) "name" rfl).1⟩

end CartLua
