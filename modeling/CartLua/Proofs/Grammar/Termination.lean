import CartLua.Proofs.Grammar.Assembly
import CartLua.Proofs.Matching.Cursor

/-!
# Checked grammars come to an end

A match of a grammar without flaws ends.  Between two rounds of a loop, and between
two items of a sequence the first of which cannot match nothing, the text that is
left gets shorter.  Before anything is taken, a rule only enters rules that come
after it in a fixed row.  Within one rule the patterns get smaller.

Three inductions follow this order: over the length of the text that is left, over
the row of rules, and over the pattern.
-/

namespace CartLua

variable {σ : Type}

/-- Whether a match has an end of its own: it matches, it fails, or the text is in error. -/
inductive Verdict.Settled : Verdict → Prop
  | matched : Settled .matched
  | failed : Settled .failed
  | fault (fault : Fault) : Settled (.stopped (.fault fault))

namespace Matching

/-- Whether a step ends wherever at most this much of the text is left. -/
def Ending (text : Array Char) (left : Nat) (step : State σ → Outcome σ) : Prop :=
  ∀ st, text.size - st.offset ≤ left → (step st).verdict.Settled

variable {text : Array Char} {observer : Observer σ} {left : Nat} {mayStay : Bool}
variable {body stop : State σ → Outcome σ}

/-- A loop ends when every round takes something. -/
theorem settled_repeated (hbody : Ending text left body) (hmoves : Moving text false body)
    {rounds : Nat} {st : State σ} (hleft : text.size - st.offset ≤ left)
    (hrounds : text.size - st.offset < rounds) :
    (repeated observer body rounds st).verdict.Settled := by
  induction rounds generalizing st with
  | zero => omega
  | succ rounds ih =>
      have hround := hmoves st
      have hend := hbody st hleft
      rw [repeated]
      generalize body st = x at hround hend ⊢
      cases hround with
      | @matched st' forward inside stays =>
          have hmoved : st'.offset ≠ st.offset := fun h => Bool.false_ne_true (stays h)
          have hsize := inside (by omega)
          exact ih (by omega) (by omega)
      | failed _ => exact .matched
      | stopped stop st => exact hend

theorem settled_repeatedAtMost (hbody : Ending text left body) (hmoves : Moving text mayStay body)
    (count : Nat) {st : State σ} (hleft : text.size - st.offset ≤ left) :
    (repeatedAtMost observer body count st).verdict.Settled := by
  induction count generalizing st with
  | zero => exact .matched
  | succ count ih =>
      have hround := hmoves st
      have hend := hbody st hleft
      rw [repeatedAtMost]
      generalize body st = x at hround hend ⊢
      cases hround with
      | matched forward inside stays => exact ih (by omega)
      | failed _ => exact .matched
      | stopped stop st => exact hend

theorem settled_skipped (hstop : Ending text left stop) (hmoves : Moving text mayStay stop)
    (origin : State σ) {rounds : Nat} {st : State σ} (hleft : text.size - st.offset ≤ left)
    (hrounds : text.size - st.offset < rounds) :
    (skipped observer text.size stop origin rounds st).verdict.Settled := by
  induction rounds generalizing st with
  | zero => omega
  | succ rounds ih =>
      have hhere := hmoves st
      have hend := hstop st hleft
      rw [skipped]
      generalize stop st = x at hhere hend ⊢
      cases hhere with
      | matched _ _ _ => exact .matched
      | failed back =>
          dsimp only
          split
          · exact .failed
          · apply ih <;> rw [State.offset_advance] <;> omega
      | stopped stop st => exact hend

/-- A loop up to an end condition ends when every round takes something. -/
theorem settled_repeatedUntil (hstop : Ending text left stop)
    (hstopMoves : Moving text mayStay stop)
    (hbody : Ending text left body) (hmoves : Moving text false body) (origin : State σ)
    {rounds : Nat} {st : State σ} (hleft : text.size - st.offset ≤ left)
    (hrounds : text.size - st.offset < rounds) :
    (repeatedUntil observer stop body origin rounds st).verdict.Settled := by
  induction rounds generalizing st with
  | zero => omega
  | succ rounds ih =>
      have hhere := hstopMoves st
      have hend := hstop st hleft
      rw [repeatedUntil]
      generalize stop st = x at hhere hend ⊢
      cases hhere with
      | matched _ _ _ => exact .matched
      | @failed st' back =>
          have hround := hmoves st'
          have hroundEnd := hbody st' (by omega)
          dsimp only
          generalize body st' = y at hround hroundEnd ⊢
          cases hround with
          | @matched st'' forward inside stays =>
              have hmoved : st''.offset ≠ st'.offset := fun h => Bool.false_ne_true (stays h)
              have hsize := inside (by omega)
              exact ih (by omega) (by omega)
          | failed _ => exact .failed
          | stopped stop st => exact hroundEnd
      | stopped stop st => exact hend

end Matching

namespace Grammar

/-- Whether a pattern, given depth enough, ends in every match of the text that begins where
at most this much is left. -/
def Settles (g : Grammar) (text : Array Char) (left : Nat) (p : Pattern) : Prop :=
  ∃ least, ∀ depth, least ≤ depth → ∀ (σ : Type) (observer : Observer σ),
    Matching.Ending text left (Matching.run (g.setting text observer) depth p)

/-- Whether several patterns in a row do. -/
def SettlesInOrder (g : Grammar) (text : Array Char) (left : Nat) (items : List Pattern) : Prop :=
  ∃ least, ∀ depth, least ≤ depth → ∀ (σ : Type) (observer : Observer σ) (origin : State σ),
    Matching.Ending text left
      (Matching.sequence observer (Matching.run (g.setting text observer) depth) origin items)

/-- Whether several alternatives do, when they are tried from one place. -/
def SettlesInTurn (g : Grammar) (text : Array Char) (left : Nat) (alternatives : List Pattern) :
    Prop :=
  ∃ least, ∀ depth, least ≤ depth → ∀ (σ : Type) (observer : Observer σ) (origin : State σ),
    text.size - origin.offset ≤ left → Matching.Ending text left
      (Matching.choice observer (Matching.run (g.setting text observer) depth) origin alternatives)

variable {g : Grammar} {text : Array Char} {left : Nat} {known : List String} {p : Pattern}

/-- A pattern settles one level above something that ends at every depth from some one on. -/
theorem Settles.of_succ (least : Nat)
    (h : ∀ depth, least ≤ depth → ∀ (σ : Type) (observer : Observer σ),
      Matching.Ending text left (Matching.run (g.setting text observer) (depth + 1) p)) :
    g.Settles text left p := by
  refine ⟨least + 1, fun depth hdepth => ?_⟩
  obtain ⟨depth, rfl⟩ := Nat.exists_eq_add_of_le' hdepth
  exact h (depth + least) (Nat.le_add_left _ _)

theorem settles_terminal (t : Terminal) : g.Settles text left (.terminal t) := by
  apply Settles.of_succ 0
  intro depth _ σ observer st _
  simp only [Matching.run, Matching.terminal, setting]
  split
  · exact .matched
  · exact .matched
  · exact .failed
  · exact .fault _

theorem Settles.opt (h : g.Settles text left p)
    (hclosed : Matching.Closed g.rule? known) : g.Settles text left (.opt p) := by
  obtain ⟨least, h⟩ := h
  apply Settles.of_succ least
  intro depth hdepth σ observer st hleft
  exact Matching.settled_repeatedAtMost (h depth hdepth σ observer)
    (moving_run hclosed text observer depth p) 1 hleft

theorem Settles.atMost (h : g.Settles text left p) (hclosed : Matching.Closed g.rule? known)
    (count : Int) : g.Settles text left (.atMost count p) := by
  obtain ⟨least, h⟩ := h
  apply Settles.of_succ least
  intro depth hdepth σ observer st hleft
  exact Matching.settled_repeatedAtMost (h depth hdepth σ observer)
    (moving_run hclosed text observer depth p) count.toNat hleft

theorem Settles.star (h : g.Settles text left p) (hclosed : Matching.Closed g.rule? known)
    (hp : p.nullable known = false) (site : Site) : g.Settles text left (.star site p) := by
  obtain ⟨least, h⟩ := h
  apply Settles.of_succ least
  intro depth hdepth σ observer st hleft
  have hmoves := moving_run hclosed text observer depth p
  rw [hp] at hmoves
  exact Matching.settled_repeated (h depth hdepth σ observer) hmoves hleft
    (by simp only [Matching.roundLimit, setting]; omega)

theorem Settles.plus (h : g.Settles text left p) (hclosed : Matching.Closed g.rule? known)
    (hp : p.nullable known = false) (site : Site) : g.Settles text left (.plus site p) := by
  obtain ⟨least, h⟩ := h
  apply Settles.of_succ least
  intro depth hdepth σ observer st hleft
  have hmoves := moving_run hclosed text observer depth p
  rw [hp] at hmoves
  have hfirst := hmoves st
  have hend := h depth hdepth σ observer st hleft
  simp only [Matching.run]
  generalize Matching.run (g.setting text observer) depth p st = x at hfirst hend ⊢
  cases hfirst with
  | matched forward _ _ =>
      exact Matching.settled_repeated (h depth hdepth σ observer) hmoves (by omega)
        (by simp only [Matching.roundLimit, setting]; omega)
  | failed _ => exact .failed
  | stopped stop st => exact hend

theorem Settles.lookahead (h : g.Settles text left p) (negated : Bool) :
    g.Settles text left (.lookahead negated p) := by
  obtain ⟨least, h⟩ := h
  apply Settles.of_succ least
  intro depth hdepth σ observer st hleft
  have hend := h depth hdepth σ observer st.enterLookahead hleft
  simp only [Matching.run, Matching.lookahead]
  generalize Matching.run (g.setting text observer) depth p st.enterLookahead = x at hend ⊢
  cases x with
  | mk verdict st' =>
      cases verdict with
      | matched => cases negated <;> constructor
      | failed => cases negated <;> constructor
      | stopped stop => exact hend

theorem Settles.skipTo (h : g.Settles text left p) (hclosed : Matching.Closed g.rule? known) :
    g.Settles text left (.skipTo p) := by
  obtain ⟨least, h⟩ := h
  apply Settles.of_succ least
  intro depth hdepth σ observer st hleft
  exact Matching.settled_skipped (h depth hdepth σ observer)
    (moving_run hclosed text observer depth p) st hleft
    (by simp only [Matching.roundLimit, setting]; omega)

theorem Settles.repeatUntil {stop : Pattern} (hstop : g.Settles text left stop)
    (h : g.Settles text left p) (hclosed : Matching.Closed g.rule? known)
    (hp : p.nullable known = false) (site : Site) :
    g.Settles text left (.repeatUntil site stop p) := by
  obtain ⟨least, hstop⟩ := hstop
  obtain ⟨least', h⟩ := h
  apply Settles.of_succ (max least least')
  intro depth hdepth σ observer st hleft
  have hmoves := moving_run hclosed text observer depth p
  rw [hp] at hmoves
  exact Matching.settled_repeatedUntil (hstop depth (by omega) σ observer)
    (moving_run hclosed text observer depth stop)
    (h depth (by omega) σ observer) hmoves st hleft
    (by simp only [Matching.roundLimit, setting]; omega)

theorem Settles.must (h : g.Settles text left p) : g.Settles text left (.must p) := by
  obtain ⟨least, h⟩ := h
  apply Settles.of_succ least
  intro depth hdepth σ observer st hleft
  have hend := h depth hdepth σ observer st hleft
  simp only [Matching.run, Matching.committed]
  generalize Matching.run (g.setting text observer) depth p st = x at hend ⊢
  cases x with
  | mk verdict st' =>
      cases verdict with
      | matched => exact .matched
      | failed => exact .fault _
      | stopped stop => exact hend

theorem Settles.rule {rule : Rule} {name : String} (hrule : g.rule? name = some rule)
    (h : g.Settles text left rule.body) : g.Settles text left (.rule name) := by
  obtain ⟨least, h⟩ := h
  apply Settles.of_succ least
  intro depth hdepth σ observer st hleft
  have hend := h depth hdepth σ observer (st.enter rule) hleft
  simp only [Matching.run]
  rw [show (g.setting text observer).rule? name = some rule from hrule]
  simp only [Matching.named]
  generalize Matching.run (g.setting text observer) depth rule.body (st.enter rule) = x at hend ⊢
  cases x with
  | mk verdict st' => cases verdict <;> exact hend

theorem Settles.ref {name : String} {site : Site} (hlinked : g.isLinked site name = true)
    (h : g.Settles text left (.rule name)) : g.Settles text left (.ref site name) := by
  obtain ⟨least, h⟩ := h
  apply Settles.of_succ least
  intro depth hdepth σ observer st hleft
  simp only [Matching.run]
  rw [if_pos (show (g.setting text observer).isLinked site name = true from hlinked)]
  exact h depth hdepth σ observer st hleft

theorem settlesInOrder_nil : g.SettlesInOrder text left [] :=
  ⟨0, fun _ _ _ _ _ _ _ => .matched⟩

/-- Items in a row settle when the first one does and the others do from where it may
end. -/
theorem Settles.cons {items : List Pattern} (h : g.Settles text left p)
    (hclosed : Matching.Closed g.rule? known)
    (hstay : p.nullable known = true → g.SettlesInOrder text left items)
    (htake : ∀ less, less < left → g.SettlesInOrder text less items) :
    g.SettlesInOrder text left (p :: items) := by
  have hothers : ∃ least, ∀ depth, least ≤ depth → ∀ (σ : Type) (observer : Observer σ)
      (origin st st' : State σ), text.size - st.offset ≤ left → st.offset ≤ st'.offset →
        (st.offset < st'.offset → st.offset < text.size) →
        (st'.offset = st.offset → p.nullable known = true) →
        (Matching.sequence observer (Matching.run (g.setting text observer) depth) origin items
          st').verdict.Settled := by
    by_cases hp : p.nullable known = true
    · obtain ⟨least, hitems⟩ := hstay hp
      exact ⟨least, fun depth hdepth σ observer origin st st' hleft forward _ _ =>
        hitems depth hdepth σ observer origin st' (by omega)⟩
    · cases left with
      | zero =>
          refine ⟨0, fun depth _ σ observer origin st st' hleft forward inside stays => ?_⟩
          have hmoved : st'.offset ≠ st.offset := fun h => hp (stays h)
          have hsize := inside (by omega)
          omega
      | succ left =>
          obtain ⟨least, hitems⟩ := htake left (Nat.lt_succ_self left)
          refine ⟨least, fun depth hdepth σ observer origin st st' hleft forward inside stays =>
            hitems depth hdepth σ observer origin st' ?_⟩
          have hmoved : st'.offset ≠ st.offset := fun h => hp (stays h)
          have hsize := inside (by omega)
          omega
  obtain ⟨least, h⟩ := h
  obtain ⟨least', hothers⟩ := hothers
  refine ⟨max least least', fun depth hdepth σ observer origin st hleft => ?_⟩
  have hitem := moving_run hclosed text observer depth p st
  have hend := h depth (by omega) σ observer st hleft
  rw [Matching.sequence]
  generalize Matching.run (g.setting text observer) depth p st = x at hitem hend ⊢
  cases hitem with
  | matched forward inside stays =>
      exact hothers depth (by omega) σ observer origin st _ hleft forward inside stays
  | failed _ => exact .failed
  | stopped stop st => exact hend

theorem SettlesInOrder.seq {items : List Pattern} (h : g.SettlesInOrder text left items) :
    g.Settles text left (.seq items) := by
  obtain ⟨least, h⟩ := h
  apply Settles.of_succ least
  exact fun depth hdepth σ observer st hleft => h depth hdepth σ observer st st hleft

theorem settlesInTurn_nil : g.SettlesInTurn text left [] :=
  ⟨0, fun _ _ _ _ _ _ _ _ => .failed⟩

theorem Settles.or {alternatives : List Pattern} (h : g.Settles text left p)
    (hothers : g.SettlesInTurn text left alternatives) :
    g.SettlesInTurn text left (p :: alternatives) := by
  obtain ⟨least, h⟩ := h
  obtain ⟨least', hothers⟩ := hothers
  refine ⟨max least least', fun depth hdepth σ observer origin horigin st hleft => ?_⟩
  have hend := h depth (by omega) σ observer st hleft
  rw [Matching.choice]
  generalize Matching.run (g.setting text observer) depth p st = x at hend ⊢
  cases x with
  | mk verdict st' =>
      cases verdict with
      | matched => exact .matched
      | failed =>
          exact hothers depth (by omega) σ observer origin horigin _ horigin
      | stopped stop => exact hend

theorem SettlesInTurn.choice {alternatives : List Pattern}
    (h : g.SettlesInTurn text left alternatives) : g.Settles text left (.choice alternatives) := by
  obtain ⟨least, h⟩ := h
  apply Settles.of_succ least
  exact fun depth hdepth σ observer st hleft => h depth hdepth σ observer st hleft st hleft

/-! ## The three inductions -/

mutual

/-- A pattern settles if the rules that it may enter first do, and all rules do where less
is left.  Only harmless patterns are inside it. -/
theorem settles_of_firstCalls (hclosed : Matching.Closed g.rule? known) :
    (p : Pattern) → (hp : ∀ q ∈ p.subpatterns, g.Harmless known q) → (left : Nat) →
    (hless : ∀ less, less < left → ∀ name, g.defines name = true →
      g.Settles text less (.rule name)) →
    (hfirst : ∀ name ∈ p.firstCalls known, g.defines name = true →
      g.Settles text left (.rule name)) →
    g.Settles text left p
  | .terminal t, _, _, _, _ => settles_terminal t
  | .seq items, hp, left, hless, hfirst =>
      (settlesInOrder_of_firstCalls hclosed items (fun q hq => hp q (List.mem_cons_of_mem _ hq))
        left hless hfirst).seq
  | .choice alternatives, hp, left, hless, hfirst =>
      (settlesInTurn_of_firstCalls hclosed alternatives
        (fun q hq => hp q (List.mem_cons_of_mem _ hq)) left hless hfirst).choice
  | .star site body, hp, left, hless, hfirst =>
      (settles_of_firstCalls hclosed body (fun q hq => hp q (List.mem_cons_of_mem _ hq)) left hless
        hfirst).star hclosed (hp _ List.mem_cons_self) site
  | .plus site body, hp, left, hless, hfirst =>
      (settles_of_firstCalls hclosed body (fun q hq => hp q (List.mem_cons_of_mem _ hq)) left hless
        hfirst).plus hclosed (hp _ List.mem_cons_self) site
  | .opt body, hp, left, hless, hfirst =>
      (settles_of_firstCalls hclosed body (fun q hq => hp q (List.mem_cons_of_mem _ hq)) left hless
        hfirst).opt hclosed
  | .atMost count body, hp, left, hless, hfirst =>
      (settles_of_firstCalls hclosed body (fun q hq => hp q (List.mem_cons_of_mem _ hq)) left hless
        hfirst).atMost hclosed count
  | .lookahead negated body, hp, left, hless, hfirst =>
      (settles_of_firstCalls hclosed body (fun q hq => hp q (List.mem_cons_of_mem _ hq)) left hless
        hfirst).lookahead negated
  | .skipTo stop, hp, left, hless, hfirst =>
      (settles_of_firstCalls hclosed stop (fun q hq => hp q (List.mem_cons_of_mem _ hq)) left hless
        hfirst).skipTo hclosed
  | .repeatUntil site stop body, hp, left, hless, hfirst =>
      have hstop := settles_of_firstCalls hclosed stop
        (fun q hq => hp q (List.mem_cons_of_mem _ (List.mem_append_right _ hq))) left hless
        (fun name hname => hfirst name (List.mem_append_left _ hname))
      have hbody := settles_of_firstCalls hclosed body
        (fun q hq => hp q (List.mem_cons_of_mem _ (List.mem_append_left _ hq))) left hless
        (fun name hname => hfirst name (List.mem_append_right _ hname))
      hstop.repeatUntil hbody hclosed (hp _ List.mem_cons_self) site
  | .must body, hp, left, hless, hfirst =>
      (settles_of_firstCalls hclosed body (fun q hq => hp q (List.mem_cons_of_mem _ hq)) left hless
        hfirst).must
  | .rule name, hp, _, _, hfirst => hfirst name List.mem_cons_self (hp _ List.mem_cons_self)
  | .ref site name, hp, _, _, hfirst =>
      have href : g.defines name = true ∧ g.isLinked site name = true := hp _ List.mem_cons_self
      (hfirst name List.mem_cons_self href.1).ref href.2

/-- After an item that takes something the others may enter any rule, since less is left. -/
theorem settlesInOrder_of_firstCalls (hclosed : Matching.Closed g.rule? known) :
    (items : List Pattern) → (hp : ∀ q ∈ Pattern.subpatternsOfAll items, g.Harmless known q) →
    (left : Nat) →
    (hless : ∀ less, less < left → ∀ name, g.defines name = true →
      g.Settles text less (.rule name)) →
    (hfirst : ∀ name ∈ Pattern.firstCallsInOrder known items, g.defines name = true →
      g.Settles text left (.rule name)) →
    g.SettlesInOrder text left items
  | [], _, _, _, _ => settlesInOrder_nil
  | item :: items, hp, left, hless, hfirst => by
      have hitem := settles_of_firstCalls hclosed item
        (fun q hq => hp q (List.mem_append_right _ hq)) left hless
        (fun name hname => hfirst name (List.mem_append_left _ hname))
      have hitems := settlesInOrder_of_firstCalls hclosed items
        (fun q hq => hp q (List.mem_append_left _ hq))
      apply hitem.cons hclosed
      · intro hstay
        apply hitems left hless
        intro name hname
        apply hfirst name
        rw [Pattern.firstCallsInOrder, if_pos hstay]
        exact List.mem_append_right _ hname
      · intro less hlt
        exact hitems less (fun less' hlt' => hless less' (Nat.lt_trans hlt' hlt))
          (fun name _ => hless less hlt name)

theorem settlesInTurn_of_firstCalls (hclosed : Matching.Closed g.rule? known) :
    (alternatives : List Pattern) →
    (hp : ∀ q ∈ Pattern.subpatternsOfAll alternatives, g.Harmless known q) → (left : Nat) →
    (hless : ∀ less, less < left → ∀ name, g.defines name = true →
      g.Settles text less (.rule name)) →
    (hfirst : ∀ name ∈ Pattern.firstCallsOfAll known alternatives, g.defines name = true →
      g.Settles text left (.rule name)) →
    g.SettlesInTurn text left alternatives
  | [], _, _, _, _ => settlesInTurn_nil
  | alternative :: alternatives, hp, left, hless, hfirst =>
      (settles_of_firstCalls hclosed alternative (fun q hq => hp q (List.mem_append_right _ hq))
        left hless (fun name hname => hfirst name (List.mem_append_left _ hname))).or
        (settlesInTurn_of_firstCalls hclosed alternatives
          (fun q hq => hp q (List.mem_append_left _ hq)) left hless
          (fun name hname => hfirst name (List.mem_append_right _ hname)))

end

/-- The rules of a row settle from the last to the first. -/
theorem settles_of_layered (hclosed : Matching.Closed g.rule? known)
    (hharmless : ∀ rule ∈ g.rules, ∀ q ∈ rule.body.subpatterns, g.Harmless known q)
    (hless : ∀ less, less < left → ∀ name, g.defines name = true →
      g.Settles text less (.rule name))
    {order : List String} (horder : Layered (g.leftCalls known) order) :
    ∀ name ∈ order, g.defines name = true → g.Settles text left (.rule name) := by
  induction order with
  | nil => exact fun name hname => absurd hname List.not_mem_nil
  | cons first others ih =>
      obtain ⟨hcallees, hothers⟩ := horder
      intro name hname hdefined
      rcases List.mem_cons.mp hname with rfl | hname
      · obtain ⟨rule, hrule⟩ := Option.isSome_iff_exists.mp hdefined
        apply Settles.rule hrule
        apply settles_of_firstCalls hclosed rule.body (hharmless rule (mem_of_rule? hrule)) left
          hless
        intro callee hcallee hdefined
        refine ih hothers callee (hcallees callee ?_) hdefined
        rw [leftCalls, hrule]
        exact mem_sortedNames.mpr (List.mem_filter.mpr ⟨hcallee, hdefined⟩)
      · exact ih hothers name hname hdefined

/-- If all rules stand in a row, they settle whatever is left of the text. -/
theorem settles_of_row (hclosed : Matching.Closed g.rule? known)
    (hharmless : ∀ rule ∈ g.rules, ∀ q ∈ rule.body.subpatterns, g.Harmless known q)
    {order : List String} (horder : Layered (g.leftCalls known) order)
    (hcomplete : ∀ name, g.defines name = true → name ∈ order) (text : Array Char) (left : Nat)
    (name : String) (hname : g.defines name = true) : g.Settles text left (.rule name) := by
  induction left using Nat.strongRecOn generalizing name with
  | ind left ih =>
      exact settles_of_layered hclosed hharmless ih horder name (hcomplete name hname) hname

theorem settles_rule (hg : g.Assembled) (hclean : g.analyze.flaws = []) (text : Array Char)
    (left : Nat) (name : String) (hname : g.defines name = true) :
    g.Settles text left (.rule name) := by
  obtain ⟨order, horder, hcomplete⟩ := g.exists_layered (flaws_eq_nil_iff.mp hclean).2.2.2.2
  exact settles_of_row (Matching.closed_nullableRules g)
    (fun rule hrule q => harmless_of_mem hg hclean hrule) horder hcomplete text left name hname

end Grammar

/-- With depth enough, a rule of an assembled grammar without flaws matches, fails or finds
the text in error, on every text and from every offset.  If it matches without moving the
cursor, it is among the rules that the self-check reports as nullable. -/
theorem checked_grammar_ends {g : Grammar} (hg : g.Assembled) (hclean : g.analyze.flaws = [])
    (text : Array Char) (name : String) (hname : g.defines name = true) :
    (∃ least, ∀ depth, least ≤ depth → ∀ (σ : Type) (observer : Observer σ) (st : State σ),
      (Matching.run (g.setting text observer) depth (.rule name) st).verdict.Settled) ∧
    ∀ (depth : Nat) (σ : Type) (observer : Observer σ) (st : State σ),
      (Matching.run (g.setting text observer) depth (.rule name) st).verdict = .matched →
      (Matching.run (g.setting text observer) depth (.rule name) st).state.offset = st.offset →
      name ∈ g.analyze.nullable := by
  constructor
  · obtain ⟨least, hsettles⟩ := Grammar.settles_rule hg hclean text text.size name hname
    exact ⟨least, fun depth hdepth σ observer st =>
      hsettles depth hdepth σ observer st (Nat.sub_le _ _)⟩
  · intro depth σ observer st hmatched hstay
    have hmoves := Grammar.moving_run
      (Matching.closed_nullableRules g) text observer depth (.rule name) st
    generalize Matching.run (g.setting text observer) depth (.rule name) st = x at *
    cases hmoves with
    | matched forward inside stays =>
        rw [Grammar.nullable_analyze hclean]
        exact mem_sortedNames.mpr (List.contains_iff_mem.mp (stays hstay))
    | failed _ => cases hmatched
    | stopped stop st => cases hmatched

namespace Grammar

/-- A rule of nested brackets. -/
def bracketsRule : Rule where
  name := "root"
  body := .seq [.text "(", .star (some 1) (.ref (some 0) "root"), .text ")"]

/-- The grammar of nested brackets. -/
def brackets : Grammar :=
  { empty "brackets" "root" [] with
    rules := [bracketsRule]
    references := ["root"]
    sites := 2
    index := ruleIndex [bracketsRule]
    index_eq := rfl }

theorem assembled_brackets : brackets.link.Assembled := by
  have hcall := (Builds.empty "brackets" "root" []).refer "root"
  have hloop := hcall.place (.star none (.ref (some 0) "root")) rfl
    fun _ h => List.mem_singleton.mp h ▸ List.mem_cons_self
  have hopen := hloop.place (.text "(") trivial fun _ h => absurd h List.not_mem_nil
  have hclose := hopen.place (.text ")") trivial fun _ h => absurd h List.not_mem_nil
  have hbody := hclose.place bracketsRule.body trivial (by
    intro part hpart
    simp only [bracketsRule, Pattern.parts, List.mem_cons, List.not_mem_nil, or_false] at hpart
    rcases hpart with rfl | rfl | rfl
    · exact .tail _ (.head _)
    · exact .tail _ (.tail _ (.head _))
    · exact .head _)
  have hbuilds : ∃ made, Builds brackets made := by
    refine ⟨_, hbody.define bracketsRule (.head _) ?_⟩
    rw [define?, if_neg]
    · rfl
    · rw [defines_iff]
      exact List.not_mem_nil
  obtain ⟨_, hbuilds⟩ := hbuilds
  exact hbuilds.assembled

theorem flaws_brackets : brackets.link.analyze.flaws = [] := by
  rw [flaws_eq_nil_iff]
  unfold undefinedReferences unreachableRules leftCycles reachable leftCalls mentionsOf
  simp only [defines_eq, rule?_eq]
  decide

end Grammar

/-- The grammar of nested brackets comes to an end on brackets that are not closed. -/
theorem checked_grammar_ends_brackets :
    Grammar.brackets.link.Assembled ∧ Grammar.brackets.link.analyze.flaws = [] ∧
      ∃ least, ∀ depth, least ≤ depth → ∀ st : State Unit,
        (Matching.run (Grammar.brackets.link.setting "(()(".toList.toArray (Observer.idle Unit))
          depth (.rule "root") st).verdict.Settled := by
  refine ⟨Grammar.assembled_brackets, Grammar.flaws_brackets, ?_⟩
  have hroot : Grammar.brackets.link.defines "root" = true :=
    (Grammar.defines_iff _).mpr (.head _)
  obtain ⟨least, hends⟩ := (checked_grammar_ends Grammar.assembled_brackets Grammar.flaws_brackets
    "(()(".toList.toArray "root" hroot).1
  exact ⟨least, fun depth hdepth st => hends depth hdepth Unit (Observer.idle Unit) st⟩

end CartLua
