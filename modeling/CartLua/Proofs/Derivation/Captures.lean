import CartLua.Matching.State
import CartLua.Proofs.Derivation.Basic

/-!
# What a derivation reports

A reader walks through the trees of a derivation from left to right and tells, for
every rule that is not quiet, what the rule captured.  Rules are told when they
end, so inner ones come before outer ones.
-/

namespace CartLua

/-- Where a reader of a derivation stands. -/
structure Walk where
  offset : Nat
  /-- The end of the last token. -/
  tokenEnd : Nat
  padding : Int
  quiet : Int
  /-- The beginnings of the anchors around, innermost first. -/
  anchors : List Nat

/-- Where a match stands. -/
def State.walk {σ : Type} (st : State σ) : Walk where
  offset := st.offset
  tokenEnd := st.tokenEnd
  padding := st.padding
  quiet := st.quiet
  anchors := st.anchors

namespace Walk

/-- The beginning of a text. -/
def initial : Walk where
  offset := 0
  tokenEnd := 0
  padding := 0
  quiet := 0
  anchors := []

/-- Pass some characters. -/
def advance (w : Walk) (count : Nat) : Walk :=
  { w with
    offset := w.offset + count
    tokenEnd := if w.padding = 0 then w.offset + count else w.tokenEnd }

/-- Begin a rule. -/
def enter (w : Walk) (rule : Rule) : Walk :=
  { w with
    padding := if rule.padding then w.padding + 1 else w.padding
    quiet := if rule.quiet then w.quiet + 1 else w.quiet
    anchors := if rule.anchor then w.offset :: w.anchors else w.anchors }

/-- End a rule. -/
def leave (w : Walk) (rule : Rule) : Walk :=
  { w with
    padding := if rule.padding then w.padding - 1 else w.padding
    quiet := if rule.quiet then w.quiet - 1 else w.quiet
    anchors := if rule.anchor then w.anchors.tail else w.anchors }

/-- What a rule that began at `begin` and ends here captures. -/
def capture (w : Walk) (rule : Rule) (begin : Nat) : Capture :=
  let start := if rule.anchored then w.anchors.headD begin else begin
  Capture.ofSpan rule.name start w.offset w.tokenEnd begin

mutual

/-- Pass a tree. -/
def pass (w : Walk) : Tree → Walk
  | .chars taken => w.advance taken.length
  | .node rule parts => (passAll (w.enter rule) parts).leave rule

/-- Pass several trees. -/
def passAll (w : Walk) : List Tree → Walk
  | [] => w
  | part :: parts => passAll (w.pass part) parts

end

mutual

/-- What the rules of a tree capture, in the order in which they end. -/
def captures (w : Walk) : Tree → List Capture
  | .chars _ => []
  | .node rule parts =>
      capturesOfAll (w.enter rule) parts ++
        if w.quiet = 0 then [(w.pass (.node rule parts)).capture rule w.offset] else []

/-- What the rules of several trees capture. -/
def capturesOfAll (w : Walk) : List Tree → List Capture
  | [] => []
  | part :: parts => w.captures part ++ capturesOfAll (w.pass part) parts

end

theorem passAll_append (w : Walk) (as bs : List Tree) :
    w.passAll (as ++ bs) = (w.passAll as).passAll bs := by
  induction as generalizing w with
  | nil => rfl
  | cons a as ih => exact ih (w.pass a)

theorem capturesOfAll_append (w : Walk) (as bs : List Tree) :
    w.capturesOfAll (as ++ bs) = w.capturesOfAll as ++ (w.passAll as).capturesOfAll bs := by
  induction as generalizing w with
  | nil => rfl
  | cons a as ih => simp [capturesOfAll, passAll, ih]

mutual

/-- A tree leaves everything but the place as it was. -/
theorem pass_eq (w : Walk) : (t : Tree) →
    w.pass t = { w with offset := w.offset + t.text.length, tokenEnd := (w.pass t).tokenEnd }
  | .chars taken => rfl
  | .node rule parts => by
      rw [pass, passAll_eq (w.enter rule) parts]
      simp only [enter, leave, Tree.text]
      cases rule.padding <;> cases rule.quiet <;> cases rule.anchor <;> simp

theorem passAll_eq (w : Walk) : (parts : List Tree) →
    w.passAll parts =
      { w with
        offset := w.offset + (Tree.textOfAll parts).length
        tokenEnd := (w.passAll parts).tokenEnd }
  | [] => rfl
  | part :: parts => by
      rw [passAll, passAll_eq (w.pass part) parts, pass_eq w part]
      simp [Tree.textOfAll, Nat.add_assoc]

end

@[simp]
theorem offset_pass (w : Walk) (t : Tree) : (w.pass t).offset = w.offset + t.text.length := by
  rw [pass_eq]

@[simp]
theorem offset_passAll (w : Walk) (parts : List Tree) :
    (w.passAll parts).offset = w.offset + (Tree.textOfAll parts).length := by
  rw [passAll_eq]

@[simp]
theorem padding_pass (w : Walk) (t : Tree) : (w.pass t).padding = w.padding := by
  rw [pass_eq]

@[simp]
theorem padding_passAll (w : Walk) (parts : List Tree) :
    (w.passAll parts).padding = w.padding := by
  rw [passAll_eq]

@[simp]
theorem quiet_pass (w : Walk) (t : Tree) : (w.pass t).quiet = w.quiet := by
  rw [pass_eq]

@[simp]
theorem quiet_passAll (w : Walk) (parts : List Tree) : (w.passAll parts).quiet = w.quiet := by
  rw [passAll_eq]

@[simp]
theorem anchors_pass (w : Walk) (t : Tree) : (w.pass t).anchors = w.anchors := by
  rw [pass_eq]

@[simp]
theorem anchors_passAll (w : Walk) (parts : List Tree) :
    (w.passAll parts).anchors = w.anchors := by
  rw [passAll_eq]

/-- Every anchor around begins here or earlier. -/
def Anchored (w : Walk) : Prop := ∀ a ∈ w.anchors, a ≤ w.offset

theorem Anchored.enter {w : Walk} (hw : w.Anchored) (rule : Rule) : (w.enter rule).Anchored := by
  intro a ha
  simp only [Walk.enter] at ha
  split at ha
  · rcases List.mem_cons.mp ha with rfl | ha
    · exact Nat.le_refl _
    · exact hw a ha
  · exact hw a ha

theorem Anchored.advance {w : Walk} (hw : w.Anchored) (count : Nat) :
    (w.advance count).Anchored :=
  fun a ha => Nat.le_add_right_of_le (hw a ha)

theorem Anchored.pass {w : Walk} (hw : w.Anchored) (t : Tree) : (w.pass t).Anchored := by
  intro a ha
  rw [anchors_pass] at ha
  rw [offset_pass]
  exact Nat.le_add_right_of_le (hw a ha)

theorem Anchored.passAll {w : Walk} (hw : w.Anchored) (parts : List Tree) :
    (w.passAll parts).Anchored := by
  intro a ha
  rw [anchors_passAll] at ha
  rw [offset_passAll]
  exact Nat.le_add_right_of_le (hw a ha)

/-- The innermost anchor, or here when there is none, lies here or earlier. -/
theorem Anchored.head_le {w : Walk} (hw : w.Anchored) : w.anchors.headD w.offset ≤ w.offset := by
  cases hanchors : w.anchors with
  | nil => exact Nat.le_refl _
  | cons a rest => exact hw a (hanchors ▸ List.mem_cons_self)

end Walk

namespace Tree

mutual

/-- Whether a rule of the tree reports from an anchor that lies outside. -/
def opens : Tree → Bool
  | chars _ => false
  | node rule parts => rule.anchored || (!rule.anchor && opensAny parts)

/-- Whether a rule of one of several trees does. -/
def opensAny : List Tree → Bool
  | [] => false
  | part :: parts => part.opens || opensAny parts

end

@[simp]
theorem opensAny_append (as bs : List Tree) :
    opensAny (as ++ bs) = (opensAny as || opensAny bs) := by
  induction as with
  | nil => rfl
  | cons a as ih => simp [opensAny, ih, Bool.or_assoc]

end Tree

namespace Walk

@[simp]
theorem rule_capture (w : Walk) (rule : Rule) (begin : Nat) :
    (w.capture rule begin).rule = rule.name := rfl

@[simp]
theorem start_capture (w : Walk) (rule : Rule) (begin : Nat) :
    (w.capture rule begin).start =
      ((if rule.anchored then w.anchors.headD begin else begin : Nat) : Int) := rfl

mutual

/-- Captures of a tree begin in it, but for one that reports from an anchor outside. -/
theorem start_of_mem_captures {w : Walk} : (t : Tree) → ∀ c ∈ w.captures t,
    (w.offset : Int) ≤ c.start ∨ t.opens = true ∧ ∃ a as, w.anchors = a :: as ∧ c.start = a ∧
      ∃ n ∈ t.nodes, n.1.anchored = true ∧ c.rule = n.1.name
  | .chars _, c, hc => by simp [captures] at hc
  | .node rule parts, c, hc => by
      rw [captures, List.mem_append] at hc
      rcases hc with hc | hc
      · rcases start_of_mem_capturesOfAll (w := w.enter rule) parts c hc with
          hstart | ⟨hopens, a, as, hanchors, hstart, n, hn, hrule⟩
        · exact .inl hstart
        · simp only [enter] at hanchors
          split at hanchors
          · cases hanchors
            exact .inl (Int.le_of_eq hstart.symm)
          · rename_i hanchor
            exact .inr ⟨by simp [Tree.opens, hopens, hanchor], a, as, hanchors, hstart, n,
              List.mem_cons_of_mem _ hn, hrule⟩
      · split at hc
        · rw [List.mem_singleton] at hc
          subst hc
          rw [start_capture, anchors_pass]
          split
          · rename_i hanchored
            cases hanchors : w.anchors with
            | nil => exact .inl (Int.le_refl _)
            | cons a as =>
                exact .inr ⟨by simp [Tree.opens, hanchored], a, as, rfl, rfl, (rule, parts),
                  List.mem_cons_self, hanchored, rfl⟩
          · exact .inl (Int.le_refl _)
        · cases hc

theorem start_of_mem_capturesOfAll {w : Walk} : (parts : List Tree) → ∀ c ∈ w.capturesOfAll parts,
    (w.offset : Int) ≤ c.start ∨ Tree.opensAny parts = true ∧ ∃ a as, w.anchors = a :: as ∧
      c.start = a ∧ ∃ n ∈ Tree.nodesOfAll parts, n.1.anchored = true ∧ c.rule = n.1.name
  | [], c, hc => by simp [capturesOfAll] at hc
  | part :: parts, c, hc => by
      rw [capturesOfAll, List.mem_append] at hc
      rcases hc with hc | hc
      · rcases start_of_mem_captures part c hc with
          hstart | ⟨hopens, a, as, ha, hstart, n, hn, hrule⟩
        · exact .inl hstart
        · exact .inr ⟨by simp [Tree.opensAny, hopens], a, as, ha, hstart, n,
            List.mem_append_left _ hn, hrule⟩
      · rcases start_of_mem_capturesOfAll (w := w.pass part) parts c hc with
          hstart | ⟨hopens, a, as, ha, hstart, n, hn, hrule⟩
        · rw [offset_pass] at hstart
          exact .inl (by omega)
        · rw [anchors_pass] at ha
          exact .inr ⟨by simp [Tree.opensAny, hopens], a, as, ha, hstart, n,
            List.mem_append_right _ hn, hrule⟩

end

/-- Captures of trees that do not report from an anchor outside begin in them. -/
theorem le_start_of_mem_capturesOfAll {w : Walk} {parts : List Tree}
    (hclosed : Tree.opensAny parts = false) {c : Capture} (hc : c ∈ w.capturesOfAll parts) :
    (w.offset : Int) ≤ c.start := by
  rcases start_of_mem_capturesOfAll parts c hc with hstart | ⟨hopens, -⟩
  · exact hstart
  · rw [hclosed] at hopens
    cases hopens

theorem stop_capture (w : Walk) (rule : Rule) (begin : Nat) :
    (w.capture rule begin).stop = w.offset := rfl

end Walk

/-- Whether a capture is that of a node at an offset: it ends with the node, and begins
with it or, if the rule reports from an anchor, before it. -/
structure Capture.Shows (c : Capture) (rule : Rule) (parts : List Tree) (offset : Nat) : Prop where
  rule_eq : c.rule = rule.name
  start_le : c.start ≤ c.ruleStart
  start_eq : rule.anchored = false → c.start = c.ruleStart
  ruleStart_eq : c.ruleStart = offset
  stop_eq : c.stop = c.ruleStart + (Tree.textOfAll parts).length

namespace Walk

/-- What a rule captures at its end shows its node. -/
theorem shows_capture {w : Walk} (hw : w.Anchored) (rule : Rule) (parts : List Tree) :
    ((w.pass (.node rule parts)).capture rule w.offset).Shows rule parts w.offset where
  rule_eq := rfl
  start_le := by
    rw [start_capture, anchors_pass]
    split
    · exact Int.ofNat_le.mpr hw.head_le
    · exact Int.le_refl _
  start_eq hanchored := by
    rw [start_capture, if_neg (by simpa using hanchored)]
    rfl
  ruleStart_eq := rfl
  stop_eq := by
    rw [stop_capture, offset_pass]
    rfl

mutual

/-- A capture shows a node of the tree. -/
theorem node_of_mem_captures {w : Walk} (hw : w.Anchored) :
    (t : Tree) → ∀ c ∈ w.captures t, ∃ n ∈ t.nodes, ∃ before after,
      t.text = before ++ (Tree.textOfAll n.2 ++ after) ∧
        c.Shows n.1 n.2 (w.offset + before.length)
  | .chars _, c, hc => by simp [captures] at hc
  | .node rule parts, c, hc => by
      rw [captures, List.mem_append] at hc
      rcases hc with hc | hc
      · obtain ⟨n, hn, before, after, htext, hshows⟩ :=
          node_of_mem_capturesOfAll (hw.enter rule) parts c hc
        exact ⟨n, List.mem_cons_of_mem _ hn, before, after, htext, hshows⟩
      · split at hc
        · rw [List.mem_singleton] at hc
          subst hc
          exact ⟨(rule, parts), List.mem_cons_self, [], [], by simp [Tree.text],
            shows_capture hw rule parts⟩
        · cases hc

theorem node_of_mem_capturesOfAll {w : Walk} (hw : w.Anchored) :
    (parts : List Tree) → ∀ c ∈ w.capturesOfAll parts, ∃ n ∈ Tree.nodesOfAll parts,
      ∃ before after, Tree.textOfAll parts = before ++ (Tree.textOfAll n.2 ++ after) ∧
        c.Shows n.1 n.2 (w.offset + before.length)
  | [], c, hc => by simp [capturesOfAll] at hc
  | part :: parts, c, hc => by
      rw [capturesOfAll, List.mem_append] at hc
      simp only [Tree.nodesOfAll, List.mem_append]
      rcases hc with hc | hc
      · obtain ⟨n, hn, before, after, htext, hshows⟩ := node_of_mem_captures hw part c hc
        exact ⟨n, .inl hn, before, after ++ Tree.textOfAll parts, by simp [Tree.textOfAll, htext],
          hshows⟩
      · obtain ⟨n, hn, before, after, htext, hshows⟩ :=
          node_of_mem_capturesOfAll (hw.pass part) parts c hc
        rw [offset_pass, Nat.add_assoc, ← List.length_append] at hshows
        exact ⟨n, .inr hn, part.text ++ before, after, by simp [Tree.textOfAll, htext], hshows⟩

end

/-- A capture lies in the text of its trees, from where its rule begins. -/
theorem bounds_of_mem_capturesOfAll {w : Walk} (hw : w.Anchored) {parts : List Tree} {c : Capture}
    (hc : c ∈ w.capturesOfAll parts) :
    (w.offset : Int) ≤ c.ruleStart ∧ c.ruleStart ≤ c.stop ∧
      c.stop ≤ (w.passAll parts).offset := by
  obtain ⟨n, -, before, after, htext, hshows⟩ := node_of_mem_capturesOfAll hw parts c hc
  have hbegin := hshows.ruleStart_eq
  have hstop := hshows.stop_eq
  rw [offset_passAll, htext]
  simp only [List.length_append]
  omega

mutual

/-- Captures are related in the order in which they end, if a capture is related to all
that begin where it ends or later, and to that of a rule around it. -/
theorem pairwise_captures {R : Capture → Capture → Prop} {w : Walk} (hw : w.Anchored)
    (hR : ∀ c d, c.stop ≤ d.ruleStart → R c d) :
    (t : Tree) →
    (∀ n ∈ t.nodes, ∀ w : Walk, w.Anchored → ∀ c ∈ (w.enter n.1).capturesOfAll n.2,
      R c ((w.pass (.node n.1 n.2)).capture n.1 w.offset)) →
    (w.captures t).Pairwise R
  | .chars _, _ => List.Pairwise.nil
  | .node rule parts, hown => by
      have hinner := pairwise_capturesOfAll (hw.enter rule) hR parts fun n hn =>
        hown n (List.mem_cons_of_mem _ hn)
      rw [captures]
      apply List.pairwise_append.mpr ⟨hinner, _, _⟩
      · split
        · exact List.pairwise_singleton _ _
        · exact List.Pairwise.nil
      · intro c hc d hd
        split at hd
        · rw [List.mem_singleton] at hd
          subst hd
          exact hown (rule, parts) List.mem_cons_self w hw c hc
        · cases hd

theorem pairwise_capturesOfAll {R : Capture → Capture → Prop} {w : Walk} (hw : w.Anchored)
    (hR : ∀ c d, c.stop ≤ d.ruleStart → R c d) :
    (parts : List Tree) →
    (∀ n ∈ Tree.nodesOfAll parts, ∀ w : Walk, w.Anchored →
      ∀ c ∈ (w.enter n.1).capturesOfAll n.2, R c ((w.pass (.node n.1 n.2)).capture n.1 w.offset)) →
    (w.capturesOfAll parts).Pairwise R
  | [], _ => List.Pairwise.nil
  | part :: parts, hown => by
      have hpart := pairwise_captures hw hR part fun n hn => hown n (List.mem_append_left _ hn)
      have hparts := pairwise_capturesOfAll (hw.pass part) hR parts fun n hn =>
        hown n (List.mem_append_right _ hn)
      rw [capturesOfAll]
      apply List.pairwise_append.mpr ⟨hpart, hparts, _⟩
      intro c hc d hd
      have hone : c ∈ w.capturesOfAll [part] := by simpa [capturesOfAll] using hc
      have hfirst := bounds_of_mem_capturesOfAll hw hone
      have hsecond := bounds_of_mem_capturesOfAll (hw.pass part) hd
      exact hR c d (Int.le_trans hfirst.2.2 hsecond.1)

end

end Walk

end CartLua
