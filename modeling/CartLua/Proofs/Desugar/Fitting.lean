import CartLua.Desugar.Plan
import CartLua.Proofs.Sorting

/-!
# Records that fit their text

Desugaring checks the records that it is given and gives up at the first one that does
not fit.  Here is what it takes for records to fit, and the proof that it is enough:
each record stands for what the text has there, and any two are apart or one lies inside
the other, on one side of its operator.
-/

namespace CartLua

open Desugar

/-- Whether a comment or a string can be brought onto one line. -/
def Lexeme.Flattens (source : Source) (lexeme : Lexeme) : Prop :=
  ∃ replacement, flatLexeme lexeme.kind (source.piece lexeme.offset lexeme.stop) = .ok replacement

namespace Occurrence

/-- Whether an occurrence takes a part of the text and begins where its line and column
say. -/
structure Placed (source : Source) (o : Occurrence) : Prop where
  offset_nonneg : 0 ≤ o.offset
  offset_lt : o.offset < o.stop
  stop_le : o.stop ≤ source.length
  line_eq : o.line = (source.lineAndColumn o.offset).1
  column_eq : o.column = (source.lineAndColumn o.offset).2

/-- Whether the operator of a compound assignment is strictly inside it and stands in the
text. -/
def HasOperator (source : Source) (o : Occurrence) : Prop :=
  ∃ (operator : Nat) (mark : Char), o.operator = some (operator : Int) ∧
    o.offset < operator ∧ operator + 2 ≤ o.stop ∧ operators.contains mark = true ∧
    source.text[operator]? = some mark ∧ source.text[operator + 1]? = some '='

/-- Whether an occurrence is what it stands for. -/
structure Fits (source : Source) (o : Occurrence) : Prop where
  placed : o.Placed source
  comparison : o.kind = .notEqual → source.piece o.offset (o.offset + 2) = ['!', '=']
  assignment : o.kind = .reassignment → o.HasOperator source
  layout : ∀ lexeme ∈ o.layout, lexeme.Flattens source

/-- Whether an occurrence lies inside an outer one that may hold others, on one side of its
operator. -/
structure Within (inner outer : Occurrence) : Prop where
  offset_lt : outer.offset < inner.offset
  stop_le : inner.stop ≤ outer.stop
  not_notEqual : outer.kind ≠ .notEqual
  beside : ∀ operator, outer.operator = some operator → besideOperator operator inner = true

/-- Whether an occurrence that begins no later may hold an inner one. -/
structure Holds (outer inner : Occurrence) : Prop where
  stop_le : inner.stop ≤ outer.stop
  not_notEqual : outer.kind ≠ .notEqual
  beside : ∀ operator, outer.operator = some operator → besideOperator operator inner = true

theorem Within.holds {inner outer : Occurrence} (h : inner.Within outer) : outer.Holds inner :=
  ⟨h.stop_le, h.not_notEqual, h.beside⟩

/-- Whether each occurrence ends before a later one begins, or may hold it. -/
def Stacked (os : List Occurrence) : Prop :=
  os.Pairwise fun outer inner => outer.stop ≤ inner.offset ∨ outer.Holds inner

/-- Whether each occurrence ends before a later one begins, or holds it. -/
def Laid (os : List Occurrence) : Prop :=
  os.Pairwise fun outer inner => outer.stop ≤ inner.offset ∨ inner.Within outer

theorem Laid.stacked {os : List Occurrence} (h : Laid os) : Stacked os :=
  List.Pairwise.imp (fun hpair => hpair.imp_right Within.holds) h

theorem Laid.sublist {as bs : List Occurrence} (hbs : Laid bs) (h : as.Sublist bs) : Laid as :=
  List.Pairwise.sublist h hbs

theorem mem_of_mem_takeWhile {outer inner : Occurrence} {rest : List Occurrence}
    (hinner : inner ∈ rest.takeWhile fun inner => inner.offset < outer.stop) :
    inner ∈ rest ∧ inner.offset < outer.stop := by
  have hbegins := List.all_eq_true.mp List.all_takeWhile inner hinner
  exact ⟨(List.takeWhile_sublist _).mem hinner, by simpa using hbegins⟩

/-- Of the occurrences after the first, those that begin inside it lie inside it. -/
theorem Laid.within_of_mem_takeWhile {outer : Occurrence} {rest : List Occurrence}
    (h : Laid (outer :: rest)) {inner : Occurrence}
    (hinner : inner ∈ rest.takeWhile fun inner => inner.offset < outer.stop) :
    inner.Within outer := by
  obtain ⟨hmem, hlt⟩ := mem_of_mem_takeWhile hinner
  exact ((List.pairwise_cons.mp h).1 inner hmem).resolve_left (Int.not_le.mpr hlt)

/-- Of the occurrences after the first, those that begin inside it are held by it. -/
theorem Stacked.holds_of_mem_takeWhile {outer : Occurrence} {rest : List Occurrence}
    (h : Stacked (outer :: rest)) {inner : Occurrence}
    (hinner : inner ∈ rest.takeWhile fun inner => inner.offset < outer.stop) :
    outer.Holds inner := by
  obtain ⟨hmem, hlt⟩ := mem_of_mem_takeWhile hinner
  exact ((List.pairwise_cons.mp h).1 inner hmem).resolve_left (Int.not_le.mpr hlt)

/-- Whether two occurrences are apart, or one of them lies inside the other. -/
def Separate (a b : Occurrence) : Prop :=
  a.stop ≤ b.offset ∨ b.stop ≤ a.offset ∨ a.Within b ∨ b.Within a

theorem Separate.symm {a b : Occurrence} (h : a.Separate b) : b.Separate a := by
  rcases h with hbefore | hafter | hinside | hwithin
  · exact .inr (.inl hbefore)
  · exact .inl hafter
  · exact .inr (.inr (.inr hinside))
  · exact .inr (.inr (.inl hwithin))

/-- Whether any two occurrences are separate. -/
def Laminar (os : List Occurrence) : Prop := os.Pairwise Separate

theorem Laminar.of_perm {as bs : List Occurrence} (hbs : Laminar bs) (h : as.Perm bs) :
    Laminar as :=
  (h.pairwise_iff Separate.symm).mpr hbs

theorem precedes_trans (a b c : Occurrence) (hab : precedes a b = true)
    (hbc : precedes b c = true) : precedes a c = true := by
  simp only [precedes, Bool.or_eq_true, Bool.and_eq_true, beq_iff_eq, decide_eq_true_eq] at *
  omega

theorem precedes_total (a b : Occurrence) : precedes a b = true ∨ precedes b a = true := by
  simp only [precedes, Bool.or_eq_true, Bool.and_eq_true, beq_iff_eq, decide_eq_true_eq]
  omega

theorem offset_le_of_precedes {a b : Occurrence} (h : precedes a b = true) :
    a.offset ≤ b.offset := by
  simp only [precedes, Bool.or_eq_true, Bool.and_eq_true, beq_iff_eq, decide_eq_true_eq] at h
  omega

/-- In the order of their beginnings, outer occurrences come before those inside them. -/
theorem Laminar.laid_sort {os : List Occurrence} (h : Laminar os)
    (hos : ∀ o ∈ os, o.offset < o.stop) : Laid (sort os) := by
  have hlaminar : Laminar (sort os) := h.of_perm (sortBy_perm precedes os)
  have hsorted : (sort os).Pairwise fun a b => precedes a b = true :=
    pairwise_sortBy precedes_trans precedes_total os
  apply (hlaminar.and hsorted).imp_of_mem
  intro a b ha hb hab
  have hle := offset_le_of_precedes hab.2
  have hlt := hos b (mem_sortBy.mp hb)
  rcases hab.1 with hbefore | hafter | hinside | hwithin
  · exact .inl hbefore
  · omega
  · have hstart := hinside.offset_lt
    omega
  · exact .inr hwithin

end Occurrence

namespace Desugar

variable {source : Source}

theorem ok_bind {α β : Type} (a : α) (next : α → Except PlanFailure β) :
    (Except.ok a >>= next) = next a := rfl

theorem checkPosition_eq_ok {o : Occurrence} (ho : o.Placed source) :
    checkPosition source o = .ok () := by
  simp only [checkPosition]
  rw [if_pos ⟨ho.line_eq, ho.column_eq, ho.stop_le⟩]

theorem forM_checkPosition_eq_ok {os : List Occurrence} (hos : ∀ o ∈ os, o.Placed source) :
    os.forM (checkPosition source) = .ok () := by
  induction os with
  | nil => rfl
  | cons o os ih =>
      have hothers := ih fun other hother => hos other (List.mem_cons_of_mem o hother)
      rw [List.forM, checkPosition_eq_ok (hos o List.mem_cons_self)]
      exact hothers

/-- The operator of a compound assignment that fits is found. -/
theorem findOperator_eq_ok {o : Occurrence} (ho : o.HasOperator source) :
    ∃ operator mark, findOperator source o = .ok (operator, mark) ∧ o.operator = some operator := by
  obtain ⟨operator, mark, hoperator, hlt, hle, hmark, hfirst, hsecond⟩ := ho
  have hnext : Position.char? source.text ((operator : Int) + 1) = some '=' :=
    (Position.char?_natCast source.text (operator + 1)).trans hsecond
  have hfound : findOperator source o = .ok ((operator : Int), mark) := by
    simp only [findOperator, hoperator]
    rw [if_pos ⟨hlt, hle⟩, Position.char?_natCast, hfirst]
    simp only [hmark, hnext]
    rfl
  exact ⟨operator, mark, hfound, hoperator⟩

/-- Lexemes that can be brought onto one line have layout edits. -/
theorem layoutEdits_eq_ok (start stop : Int) (edits : List Edit) {layout : List Lexeme}
    (hlayout : ∀ lexeme ∈ layout, lexeme.Flattens source) :
    ∃ flattened, layoutEdits source start stop edits layout = .ok flattened := by
  induction layout with
  | nil => exact ⟨[], rfl⟩
  | cons lexeme layout ih =>
      obtain ⟨others, hothers⟩ := ih fun other hother =>
        hlayout other (List.mem_cons_of_mem lexeme hother)
      obtain ⟨replacement, hreplacement⟩ := hlayout lexeme List.mem_cons_self
      rw [layoutEdits]
      split
      · exact ⟨others, hothers⟩
      · rw [hreplacement]
        cases replacement with
        | none => exact ⟨others, hothers⟩
        | some replacement =>
            refine ⟨⟨lexeme.offset, lexeme.stop, replacement⟩ :: others, ?_⟩
            simp only [hothers]
            rfl

/-- Whether the lexemes of a layout, if there is one, can be brought onto one line. -/
def LayoutFlattens (source : Source) (layout : Option (List Lexeme)) : Prop :=
  ∀ lexemes, layout = some lexemes → ∀ lexeme ∈ lexemes, lexeme.Flattens source

theorem render_eq_ok (start stop : Int) (edits : List Edit) {layout : Option (List Lexeme)}
    (hlayout : LayoutFlattens source layout) :
    ∃ rendered, render source start stop edits layout = .ok rendered := by
  cases layout with
  | none => exact ⟨_, rfl⟩
  | some lexemes =>
      obtain ⟨flattened, hflattened⟩ :=
        layoutEdits_eq_ok start stop edits (hlayout lexemes rfl)
      rw [render, hflattened]
      exact ⟨_, rfl⟩

theorem notEqualEdit_eq_ok {o : Occurrence} (ho : o.Fits source) (hkind : o.kind = .notEqual) :
    ∃ edit, notEqualEdit source o [] = .ok edit := by
  simp only [notEqualEdit]
  rw [if_pos (ho.comparison hkind)]
  exact ⟨_, rfl⟩

/-- A compound assignment has an edit when the occurrences inside it have edits. -/
theorem reassignmentEdit_eq_ok
    {editsOf : List Occurrence → Option (List Lexeme) → Except PlanFailure (List Edit)}
    {o : Occurrence} {nested : List Occurrence} {layout : Option (List Lexeme)}
    (ho : o.Fits source) (hkind : o.kind = .reassignment)
    (hnested : ∀ inner ∈ nested, o.Holds inner) (hlayout : LayoutFlattens source layout)
    (hedits : ∀ inside, inside.Sublist nested → ∀ layout, LayoutFlattens source layout →
      ∃ edits, editsOf inside layout = .ok edits) :
    ∃ edit, reassignmentEdit source editsOf o nested layout = .ok edit := by
  obtain ⟨operator, mark, hfound, hoperator⟩ := findOperator_eq_ok (ho.assignment hkind)
  have hbeside : nested.find? (fun inner => !besideOperator operator inner) = none := by
    rw [List.find?_eq_none]
    intro inner hinner
    rw [(hnested inner hinner).beside operator hoperator]
    decide
  have hpart : ∀ (keep : Occurrence → Bool) (start stop : Int) (layout : Option (List Lexeme)),
      LayoutFlattens source layout → ∃ rendered,
        (do render source start stop (← editsOf (nested.filter keep) layout) layout) =
          Except.ok rendered := by
    intro keep start stop layout hlayout
    obtain ⟨edits, hedits⟩ := hedits _ List.filter_sublist layout hlayout
    obtain ⟨rendered, hrendered⟩ := render_eq_ok start stop edits hlayout
    rw [hedits]
    exact ⟨rendered, hrendered⟩
  have hown : LayoutFlattens source (some o.layout) := by
    intro lexemes hlexemes
    cases hlexemes
    exact ho.layout
  let inTarget (inner : Occurrence) : Bool := inner.stop ≤ operator
  let inValue (inner : Occurrence) : Bool := operator < inner.stop
  obtain ⟨target, htarget⟩ := hpart inTarget o.offset operator layout hlayout
  obtain ⟨copy, hcopy⟩ := hpart inTarget o.offset operator (some o.layout) hown
  obtain ⟨value, hvalue⟩ := hpart inValue (operator + 2) o.stop layout hlayout
  simp only [inTarget, inValue] at htarget hcopy hvalue
  rw [reassignmentEdit, hfound, ok_bind]
  simp only [hbeside]
  cases layout with
  | none =>
      simp only [htarget, hcopy, hvalue, ok_bind]
      exact ⟨_, rfl⟩
  | some lexemes =>
      simp only [htarget, hvalue, ok_bind]
      exact ⟨_, rfl⟩

/-- Occurrences that fit and are stacked have edits. -/
theorem edits_eq_ok (steps : Nat) {os : List Occurrence} {layout : Option (List Lexeme)}
    (hfits : ∀ o ∈ os, isSugar o = true ∧ o.Fits source) (hstacked : Occurrence.Stacked os)
    (hlayout : LayoutFlattens source layout) :
    ∃ found, edits source steps os layout = .ok found := by
  induction steps generalizing os layout with
  | zero => exact ⟨[], rfl⟩
  | succ steps ih =>
      cases os with
      | nil => exact ⟨[], rfl⟩
      | cons outer rest =>
          have hrest := (List.pairwise_cons.mp hstacked).2
          have hsublist : ∀ inside, inside.Sublist rest → ∀ layout,
              LayoutFlattens source layout →
                ∃ found, edits source steps inside layout = .ok found := by
            intro inside hinside layout hlayout
            apply ih _ (hrest.sublist hinside) hlayout
            intro o ho
            exact hfits o (List.mem_cons_of_mem outer (hinside.mem ho))
          have hholds : ∀ inner ∈ rest.takeWhile (fun inner => inner.offset < outer.stop),
              outer.Holds inner := fun inner => hstacked.holds_of_mem_takeWhile
          have hnone : (rest.takeWhile fun inner => inner.offset < outer.stop).find?
              (fun inner => decide (outer.stop < inner.stop)) = none := by
            rw [List.find?_eq_none]
            intro inner hinner
            have hle := (hholds inner hinner).stop_le
            simpa using hle
          obtain ⟨hsugar, houter⟩ := hfits outer List.mem_cons_self
          obtain ⟨others, hothers⟩ := hsublist
            (rest.dropWhile fun inner => inner.offset < outer.stop) (List.dropWhile_sublist _)
            layout hlayout
          rw [edits]
          simp only [hnone]
          cases hkind : outer.kind with
          | notEqual =>
              have hnil : rest.takeWhile (fun inner => inner.offset < outer.stop) = [] := by
                rw [List.eq_nil_iff_forall_not_mem]
                intro inner hinner
                exact (hholds inner hinner).not_notEqual hkind
              obtain ⟨edit, hedit⟩ := notEqualEdit_eq_ok houter hkind
              simp only [hnil, hedit, hothers, ok_bind]
              exact ⟨_, rfl⟩
          | reassignment =>
              obtain ⟨edit, hedit⟩ := reassignmentEdit_eq_ok houter hkind hholds hlayout
                fun inside hinside => hsublist inside (hinside.trans (List.takeWhile_sublist _))
              simp only [hedit, hothers, ok_bind]
              exact ⟨_, rfl⟩
          | shortIf => simp [isSugar, hkind] at hsugar

/-- There is a plan for occurrences that fit and lie apart or nested. -/
theorem plan_eq_ok {os : List Occurrence} (hfits : ∀ o ∈ os, o.Fits source)
    (hlaminar : Occurrence.Laminar os) : ∃ found, plan source os = .ok found := by
  have hsugar : ∀ o ∈ os.filter isSugar, isSugar o = true ∧ o.Fits source := by
    intro o ho
    exact ⟨(List.mem_filter.mp ho).2, hfits o (List.mem_filter.mp ho).1⟩
  have hlaid : Occurrence.Laid (Occurrence.sort (os.filter isSugar)) := by
    apply Occurrence.Laminar.laid_sort (List.Pairwise.sublist List.filter_sublist hlaminar)
    intro o ho
    exact (hsugar o ho).2.placed.offset_lt
  have hplaced := forM_checkPosition_eq_ok fun o ho => (hsugar o ho).2.placed
  rw [plan, hplaced, ok_bind]
  apply edits_eq_ok _ _ hlaid.stacked
  · intro lexemes hnone
    cases hnone
  · intro o ho
    exact hsugar o (mem_sortBy.mp ho)

end Desugar

end CartLua
