import Mathlib.Data.List.Pairwise
import CartLua.Proofs.Desugar.LinePreservation

/-!
# Which records are desugared

Records may be made by hand, in any order.  They are desugared just when each is what the text
has at its place, any two are apart or one lies inside the other, and an assignment has its
operator between the records inside it.  The checks are spread over one sweep that goes on
inside each side of an operator; taken together they are neither too strict nor too lax.
-/

namespace CartLua

open Desugar

theorem Except.bind_eq_error {ε α β : Type} {x : Except ε α} {next : α → Except ε β} {e : ε}
    (h : (x >>= next) = .error e) : x = .error e ∨ ∃ a, x = .ok a ∧ next a = .error e := by
  cases x with
  | ok a => exact .inr ⟨a, rfl, h⟩
  | error _ =>
      cases h
      exact .inl rfl

/-- Checks made one after another end with the first one that fails. -/
theorem Except.forM_cases {ε α : Type} (f : α → Except ε Unit) (as : List α) :
    (as.forM f = .ok () ∧ ∀ a ∈ as, f a = .ok ()) ∨
      ∃ a ∈ as, ∃ e, f a = .error e ∧ as.forM f = .error e := by
  induction as with
  | nil => exact .inl ⟨rfl, nofun⟩
  | cons a as ih =>
      cases ha : f a with
      | error e => exact .inr ⟨a, List.mem_cons_self, e, ha, by rw [List.forM, ha]; rfl⟩
      | ok _ =>
          have hcons : (a :: as).forM f = as.forM f := by rw [List.forM, ha]; rfl
          rw [hcons]
          rcases ih with ⟨hok, hall⟩ | ⟨b, hb, e, hb', herror⟩
          · exact .inl ⟨hok, List.forall_mem_cons.mpr ⟨ha, hall⟩⟩
          · exact .inr ⟨b, List.mem_cons_of_mem a hb, e, hb', herror⟩

/-- Where an edit begins and ends. -/
def Edit.span (edit : Edit) : Int × Int := (edit.start, edit.stop)

namespace Occurrence

/-- Whether an occurrence has a span like one that was recorded, and no layout. -/
structure Bare (o : Occurrence) : Prop where
  offset_nonneg : 0 ≤ o.offset
  length_nonneg : 0 ≤ o.length
  length_notEqual : o.kind = .notEqual → o.length = 2
  layout_eq : o.layout = []

/-- Where an occurrence begins and ends. -/
def span (o : Occurrence) : Int × Int := (o.offset, o.stop)

/-- Whether the span of an occurrence has that of another one inside it. -/
def Nests (outer inner : Occurrence) : Prop :=
  outer.offset ≤ inner.offset ∧ inner.stop ≤ outer.stop

/-- Whether two occurrences have different spans that are disjoint or nested. -/
structure Compatible (a b : Occurrence) : Prop where
  distinct : a.span ≠ b.span
  disjoint_or_nested : a.stop ≤ b.offset ∨ b.stop ≤ a.offset ∨ a.Nests b ∨ b.Nests a

/-- Whether occurrences are what the text has, and arranged so that edits can follow. -/
structure Admissible (source : Source) (os : List Occurrence) : Prop where
  placed : ∀ o ∈ os, o.line = (source.lineAndColumn o.offset).1 ∧
    o.column = (source.lineAndColumn o.offset).2 ∧ o.stop ≤ source.length
  compatible : os.Pairwise Compatible
  comparison : ∀ o ∈ os, o.kind = .notEqual →
    source.piece o.offset o.stop = ['!', '='] ∧ ∀ inner ∈ os, o.Nests inner → inner = o
  assignment : ∀ o ∈ os, o.kind = .reassignment → o.HasOperator source ∧
    ∀ operator, o.operator = some operator → ∀ inner ∈ os, o.Nests inner → inner ≠ o →
      inner.stop ≤ operator ∨ operator + 2 ≤ inner.offset

variable {source : Source} {a b o outer inner : Occurrence}

theorem Compatible.symm (h : a.Compatible b) : b.Compatible a where
  distinct := h.distinct.symm
  disjoint_or_nested := by
    rcases h.disjoint_or_nested with hbefore | hafter | hnests | hnested
    · exact .inr (.inl hbefore)
    · exact .inl hafter
    · exact .inr (.inr (.inr hnests))
    · exact .inr (.inr (.inl hnested))

/-- What fits and may be held is smaller than what holds it. -/
theorem Holds.not_nests (h : outer.Holds inner) (hfits : outer.Fits source)
    (hsugar : isSugar outer = true) : ¬inner.Nests outer := by
  rintro ⟨hoffset, hstop⟩
  cases hkind : outer.kind with
  | notEqual => exact h.not_notEqual hkind
  | shortIf => simp [isSugar, hkind] at hsugar
  | reassignment =>
      obtain ⟨operator, mark, hoperator, hlt, hle, -⟩ := hfits.assignment hkind
      have hbeside := h.beside operator hoperator
      simp only [besideOperator, Bool.or_eq_true, decide_eq_true_eq] at hbeside
      omega

end Occurrence

namespace Desugar

variable {source : Source} {o outer : Occurrence} {os nested rest : List Occurrence}
  {layout : Option (List Lexeme)} {found : List Edit} {steps : Nat}

/-! ## What success says -/

/-- Whether a record that is not malformed lies where its line and column say. -/
structure Sound (source : Source) (o : Occurrence) : Prop extends o.Bare where
  sugar : isSugar o = true
  line_eq : o.line = (source.lineAndColumn o.offset).1
  column_eq : o.column = (source.lineAndColumn o.offset).2
  stop_le : o.stop ≤ source.length

theorem Sound.fits (h : Sound source o) (hlt : o.offset < o.stop)
    (hcomparison : o.kind = .notEqual → source.piece o.offset (o.offset + 2) = ['!', '='])
    (hassignment : o.kind = .reassignment → o.HasOperator source) : o.Fits source where
  placed := ⟨h.offset_nonneg, hlt, h.stop_le, h.line_eq, h.column_eq⟩
  comparison := hcomparison
  assignment := hassignment
  layout _ hlexeme := absurd (h.layout_eq ▸ hlexeme) List.not_mem_nil

theorem hasOperator_of_findOperator {operator : Int} {mark : Char} (ho : 0 ≤ o.offset)
    (h : findOperator source o = .ok (operator, mark)) : o.HasOperator source := by
  obtain ⟨hoperator, hlt, hle, hmark, hfirst, hsecond⟩ := mark_of_findOperator h
  obtain ⟨operator, rfl⟩ := Int.eq_ofNat_of_zero_le (Int.le_trans ho (Int.le_of_lt hlt))
  rw [Position.char?_natCast] at hfirst
  have hsecond' : source.text[operator + 1]? = some '=' :=
    (Position.char?_natCast source.text (operator + 1)).symm.trans hsecond
  exact ⟨operator, mark, hoperator, hlt, hle, hmark, hfirst, hsecond'⟩

/-- Records on both sides of an operator are stacked when those on each side are. -/
theorem stacked_of_sides {operator : Int} (hlength : ∀ o ∈ nested, 0 ≤ o.length)
    (hsorted : nested.Pairwise fun a b => a.offset ≤ b.offset)
    (hbeside : ∀ inner ∈ nested, besideOperator operator inner = true)
    (htarget : Occurrence.Stacked (nested.filter fun inner => inner.stop ≤ operator))
    (hvalue : Occurrence.Stacked (nested.filter fun inner => operator < inner.stop)) :
    Occurrence.Stacked nested := by
  rw [Occurrence.Stacked, List.pairwise_filter] at htarget hvalue
  refine List.Pairwise.imp_of_mem ?_ (hsorted.and (htarget.and hvalue))
  rintro a b ha hb ⟨hle, hinTarget, hinValue⟩
  have hbesideA := hbeside a ha
  have hbesideB := hbeside b hb
  have hspan : b.offset ≤ b.stop := by
    have := hlength b hb
    simp only [Occurrence.stop]
    omega
  simp only [besideOperator, Bool.or_eq_true, decide_eq_true_eq]
    at hbesideA hbesideB hinTarget hinValue
  by_cases hA : a.stop ≤ operator
  · by_cases hB : b.stop ≤ operator
    · exact hinTarget hA hB
    · exact .inl (by omega)
  · exact hinValue (by omega) (by omega)

/-- What begins after the records inside the first one lies behind it. -/
theorem of_mem_dropWhile (hsorted : rest.Pairwise fun a b => a.offset ≤ b.offset)
    (ho : o ∈ rest.dropWhile fun inner => inner.offset < outer.stop) :
    o ∈ rest ∧ outer.stop ≤ o.offset := by
  have hdropped : rest.dropWhile (fun inner => inner.offset < outer.stop) =
      rest.filter fun inner => outer.stop ≤ inner.offset := OffsetLog.dropWhile_eq_filter hsorted
  rw [hdropped] at ho
  simpa using List.mem_filter.mp ho

theorem mem_takeWhile_or_dropWhile (outer : Occurrence) (ho : o ∈ rest) :
    o ∈ rest.takeWhile (fun inner => inner.offset < outer.stop) ∨
      o ∈ rest.dropWhile (fun inner => inner.offset < outer.stop) := by
  rw [← List.mem_append, List.takeWhile_append_dropWhile]
  exact ho

/-- Whether records in order fit the text, and each ends before a later one or may hold it. -/
structure Arranged (source : Source) (os : List Occurrence) : Prop where
  fits : ∀ o ∈ os, o.Fits source
  stacked : Occurrence.Stacked os

theorem Arranged.nil : Arranged source [] := ⟨nofun, .nil⟩

theorem Arranged.sublist {part : List Occurrence} (h : Arranged source os)
    (hpart : part.Sublist os) : Arranged source part :=
  ⟨fun o ho => h.fits o (hpart.mem ho), List.Pairwise.sublist hpart h.stacked⟩

/-- Records are arranged when those inside the first one are, and those behind it. -/
theorem Arranged.cons (houter : outer.Fits source)
    (hnested : Arranged source (rest.takeWhile fun inner => inner.offset < outer.stop))
    (hholds : ∀ inner ∈ rest.takeWhile (fun inner => inner.offset < outer.stop),
      outer.Holds inner)
    (hothers : Arranged source (rest.dropWhile fun inner => inner.offset < outer.stop))
    (hsorted : rest.Pairwise fun a b => a.offset ≤ b.offset) : Arranged source (outer :: rest) := by
  have hsplit : rest.takeWhile (fun inner : Occurrence => decide (inner.offset < outer.stop)) ++
      rest.dropWhile (fun inner => inner.offset < outer.stop) = rest :=
    List.takeWhile_append_dropWhile
  constructor
  · intro o ho
    rcases List.mem_cons.mp ho with rfl | ho
    · exact houter
    · rcases mem_takeWhile_or_dropWhile _ ho with ho | ho
      · exact hnested.fits o ho
      · exact hothers.fits o ho
  · refine List.pairwise_cons.mpr ⟨fun inner hinner => ?_, ?_⟩
    · rcases mem_takeWhile_or_dropWhile _ hinner with hinner | hinner
      · exact .inr (hholds inner hinner)
      · exact .inl (of_mem_dropWhile hsorted hinner).2
    · rw [← hsplit]
      refine List.pairwise_append.mpr ⟨hnested.stacked, hothers.stacked, fun a ha b hb => ?_⟩
      exact .inl (Int.le_trans (hholds a ha).stop_le (of_mem_dropWhile hsorted hb).2)

/-- What the edit of a compound assignment says of the record and of those inside it. -/
theorem arranged_of_reassignmentEdit {edit : Edit}
    {editsOf : List Occurrence → Option (List Lexeme) → Except PlanFailure (List Edit)}
    (houter : Sound source outer) (hkind : outer.kind ≠ .notEqual)
    (hlength : ∀ o ∈ nested, 0 ≤ o.length) (hinside : ∀ inner ∈ nested, inner.stop ≤ outer.stop)
    (hsorted : nested.Pairwise fun a b => a.offset ≤ b.offset)
    (hpart : ∀ part, part.Sublist nested → ∀ {layout found},
      editsOf part layout = .ok found → Arranged source part)
    (h : reassignmentEdit source editsOf outer nested layout = .ok edit) :
    outer.Fits source ∧ Arranged source nested ∧ ∀ inner ∈ nested, outer.Holds inner := by
  obtain ⟨operator, mark, target, copy, value, hfound, hbeside, htarget, -, hvalue, -⟩ :=
    reassignmentEdit_eq h
  obtain ⟨inTarget, hinTarget, -⟩ := Except.bind_eq_ok htarget
  obtain ⟨inValue, hinValue, -⟩ := Except.bind_eq_ok hvalue
  have harrangedTarget := hpart _ List.filter_sublist hinTarget
  have harrangedValue := hpart _ List.filter_sublist hinValue
  obtain ⟨hoperator, hlt, hle, -⟩ := mark_of_findOperator hfound
  refine ⟨?_, ⟨fun o ho => ?_, ?_⟩, fun inner hinner =>
    ⟨hinside inner hinner, hkind, fun other hother => ?_⟩⟩
  · exact houter.fits (by omega) (fun h => absurd h hkind)
      fun _ => hasOperator_of_findOperator houter.offset_nonneg hfound
  · by_cases hside : o.stop ≤ operator
    · exact harrangedTarget.fits o (List.mem_filter.mpr ⟨ho, by simpa using hside⟩)
    · exact harrangedValue.fits o (List.mem_filter.mpr ⟨ho, by simpa using hside⟩)
  · exact stacked_of_sides hlength hsorted hbeside harrangedTarget.stacked harrangedValue.stacked
  · cases hoperator.symm.trans hother
    exact hbeside inner hinner

/-- Records in order whose edits are made are arranged.  The induction is on the number of
records: the two sides of an operator and what follows have fewer. -/
theorem arranged_of_edits (hsteps : os.length ≤ steps) (hsound : ∀ o ∈ os, Sound source o)
    (hsorted : os.Pairwise fun a b => a.offset ≤ b.offset)
    (h : edits source steps os layout = .ok found) : Arranged source os := by
  induction steps generalizing os layout found with
  | zero =>
      obtain rfl := List.length_eq_zero_iff.mp (Nat.le_zero.mp hsteps)
      exact .nil
  | succ steps ih =>
      cases os with
      | nil => exact .nil
      | cons outer rest =>
          obtain ⟨edit, others, rfl, hinside, hothers, hedit⟩ := edits_cons_eq h
          have hrest := (List.pairwise_cons.mp hsorted).2
          have houter := hsound outer List.mem_cons_self
          have hpart : ∀ part, part.Sublist rest → ∀ {layout found},
              edits source steps part layout = .ok found → Arranged source part := by
            intro part hpart layout found hfound
            refine ih (Nat.le_trans hpart.length_le (Nat.le_of_succ_le_succ hsteps)) ?_
              (hrest.sublist hpart) hfound
            exact fun o ho => hsound o (List.mem_cons_of_mem outer (hpart.mem ho))
          have harranged := hpart _ (List.dropWhile_sublist _) hothers
          rcases hedit with ⟨hkind, -, hpiece, hnil⟩ | ⟨hkind, hassigned⟩
          · have hlength := houter.length_notEqual hkind
            have hfits : outer.Fits source := by
              refine houter.fits ?_ (fun _ => hpiece) (by rw [hkind]; simp)
              rw [Occurrence.stop]
              omega
            refine .cons hfits ?_ ?_ harranged hrest
            · rw [hnil]
              exact .nil
            · rw [hnil]
              simp
          · have hsublist := List.takeWhile_sublist (l := rest)
              fun inner : Occurrence => decide (inner.offset < outer.stop)
            obtain ⟨hfits, hnested, hholds⟩ := arranged_of_reassignmentEdit houter hkind
              (fun o ho =>
                (hsound o (List.mem_cons_of_mem outer (hsublist.mem ho))).length_nonneg)
              hinside (hrest.sublist hsublist)
              (fun part hin => hpart part (hin.trans hsublist)) hassigned
            exact .cons hfits hnested hholds harranged hrest

/-! ## What the edits are -/

/-- Whether edits replace just the outermost of some records, one each and in order. -/
def Outermost (os : List Occurrence) (found : List Edit) : Prop :=
  ∃ outermost : List Occurrence, found.map Edit.span = outermost.map Occurrence.span ∧
    outermost.Pairwise (fun a b => a.stop ≤ b.offset) ∧
    ∀ o, o ∈ outermost ↔ o ∈ os ∧ ∀ outer ∈ os, outer.Nests o → outer = o

theorem Outermost.congr {others : List Occurrence} (h : Outermost os found)
    (hmem : ∀ o, o ∈ os ↔ o ∈ others) : Outermost others found := by
  obtain ⟨outermost, hspans, hordered, honly⟩ := h
  refine ⟨outermost, hspans, hordered, fun o => ?_⟩
  simp only [honly, hmem]

/-- The first of some records is not inside another one. -/
theorem Arranged.not_nests_head (h : Arranged source (outer :: rest))
    (hsugar : isSugar outer = true) (ho : o ∈ rest) : ¬o.Nests outer := by
  have houter := h.fits outer List.mem_cons_self
  rcases (List.pairwise_cons.mp h.stacked).1 o ho with hapart | hholds
  · have hlt := houter.placed.offset_lt
    exact fun hnests => absurd hnests.1 (by omega)
  · exact hholds.not_nests houter hsugar

/-- The first record is outermost, and so are the outermost ones of those behind it. -/
theorem Outermost.cons {edit : Edit} {others : List Edit}
    (harranged : Arranged source (outer :: rest)) (hsugar : isSugar outer = true)
    (hsorted : (outer :: rest).Pairwise fun a b => a.offset ≤ b.offset)
    (hspan : edit.span = outer.span)
    (hothers : Outermost (rest.dropWhile fun inner => inner.offset < outer.stop) others) :
    Outermost (outer :: rest) (edit :: others) := by
  obtain ⟨outermost, hspans, hordered, hmem⟩ := hothers
  obtain ⟨hfirst, hrest⟩ := List.pairwise_cons.mp hsorted
  have hin : ∀ o ∈ rest.dropWhile (fun inner => inner.offset < outer.stop), o ∈ outer :: rest :=
    fun o ho => List.mem_cons_of_mem outer (of_mem_dropWhile hrest ho).1
  have houter := (harranged.fits outer List.mem_cons_self).placed.offset_lt
  refine ⟨outer :: outermost, by rw [List.map_cons, List.map_cons, hspan, hspans],
    List.pairwise_cons.mpr ⟨fun o ho => ?_, hordered⟩, fun o => ?_⟩
  · exact (of_mem_dropWhile hrest ((hmem o).mp ho).1).2
  rw [List.mem_cons]
  constructor
  · rintro (rfl | ho)
    · refine ⟨List.mem_cons_self, fun other hother hnests => ?_⟩
      exact (List.mem_cons.mp hother).resolve_right fun hother =>
        harranged.not_nests_head hsugar hother hnests
    · obtain ⟨hdropped, honly⟩ := (hmem o).mp ho
      have hbehind := (of_mem_dropWhile hrest hdropped).2
      have hpositive := (harranged.fits o (hin o hdropped)).placed.offset_lt
      refine ⟨hin o hdropped, fun other hother hnests => ?_⟩
      have hstop := hnests.2
      rcases List.mem_cons.mp hother with rfl | hother
      · omega
      · rcases mem_takeWhile_or_dropWhile _ hother with hother | hother
        · have hinside := (harranged.stacked.holds_of_mem_takeWhile hother).stop_le
          omega
        · exact honly other hother hnests
  · rintro ⟨ho, honly⟩
    refine (List.mem_cons.mp ho).imp_right fun ho => ?_
    rcases mem_takeWhile_or_dropWhile outer ho with htaken | hdropped
    · have hholds := harranged.stacked.holds_of_mem_takeWhile htaken
      cases honly outer List.mem_cons_self ⟨hfirst o ho, hholds.stop_le⟩
      exact absurd ⟨Int.le_refl _, Int.le_refl _⟩ (harranged.not_nests_head hsugar ho)
    · exact (hmem o).mpr ⟨hdropped, fun other hother => honly other (hin other hother)⟩

/-- Edits of arranged records replace the outermost ones. -/
theorem outermost_of_edits (hsteps : os.length ≤ steps) (hsound : ∀ o ∈ os, Sound source o)
    (harranged : Arranged source os) (hsorted : os.Pairwise fun a b => a.offset ≤ b.offset)
    (h : edits source steps os layout = .ok found) : Outermost os found := by
  induction steps generalizing os layout found with
  | zero =>
      obtain rfl := List.length_eq_zero_iff.mp (Nat.le_zero.mp hsteps)
      cases h
      exact ⟨[], rfl, .nil, by simp⟩
  | succ steps ih =>
      cases os with
      | nil =>
          cases h
          exact ⟨[], rfl, .nil, by simp⟩
      | cons outer rest =>
          obtain ⟨edit, others, rfl, -, hothers, hedit⟩ := edits_cons_eq h
          have houter := hsound outer List.mem_cons_self
          have hsublist := (List.dropWhile_sublist (l := rest) fun inner : Occurrence =>
            decide (inner.offset < outer.stop)).trans (List.sublist_cons_self outer rest)
          have hlength := Nat.le_trans (List.dropWhile_sublist (l := rest) fun inner : Occurrence =>
            decide (inner.offset < outer.stop)).length_le (Nat.le_of_succ_le_succ hsteps)
          refine Outermost.cons harranged houter.sugar hsorted ?_ (ih hlength
            (fun o ho => hsound o (hsublist.mem ho)) (harranged.sublist hsublist)
            (hsorted.sublist hsublist) hothers)
          rcases hedit with ⟨hkind, rfl, -⟩ | ⟨-, hassigned⟩
          · rw [Occurrence.span, Occurrence.stop, houter.length_notEqual hkind]
            rfl
          · obtain ⟨_, _, _, _, _, -, -, -, -, -, rfl⟩ := reassignmentEdit_eq hassigned
            rfl

/-! ## What failure says -/

/-- Whether a failure says that a record does not fit. -/
def OfRecord (failure : PlanFailure) : Prop := ∃ error, failure = .record error

theorem ofRecord_of_checkPosition {failure : PlanFailure}
    (h : checkPosition source o = .error failure) : OfRecord failure := by
  simp only [checkPosition] at h
  split at h <;> cases h
  exact ⟨_, rfl⟩

/-- An operator that is looked for in the text is not outside of it. -/
theorem ofRecord_of_findOperator {failure : PlanFailure} (hoffset : 0 ≤ o.offset)
    (hstop : o.stop ≤ source.length) (h : findOperator source o = .error failure) :
    OfRecord failure := by
  rw [findOperator] at h
  split at h
  · rename_i operator _
    split at h
    · rename_i hrange
      obtain ⟨operator, rfl⟩ := Int.eq_ofNat_of_zero_le (show 0 ≤ operator by omega)
      have hlt : operator < source.text.size := by
        have hsize : source.length = source.text.size := rfl
        omega
      rw [Position.char?_natCast, Array.getElem?_eq_getElem hlt] at h
      dsimp only at h
      split at h <;> cases h
      exact ⟨_, rfl⟩
    · cases h
      exact ⟨_, rfl⟩
  · cases h
    exact ⟨_, rfl⟩

theorem ofRecord_of_notEqualEdit {failure : PlanFailure}
    (h : notEqualEdit source o nested = .error failure) : OfRecord failure := by
  simp only [notEqualEdit] at h
  split at h
  · split at h <;> cases h
    exact ⟨_, rfl⟩
  · cases h
    exact ⟨_, rfl⟩

/-- Without lexemes, only the edits inside a range can fail. -/
theorem of_renderWith_eq_error {failure : PlanFailure} {start stop : Int}
    {editsOf : List Occurrence → Option (List Lexeme) → Except PlanFailure (List Edit)}
    (hlayout : layout = none ∨ layout = some [])
    (h : renderWith source editsOf start stop nested layout = .error failure) :
    editsOf nested layout = .error failure := by
  rcases Except.bind_eq_error h with h | ⟨found, -, h⟩
  · exact h
  · rcases hlayout with rfl | rfl <;> cases h

theorem ofRecord_of_reassignmentEdit {failure : PlanFailure}
    {editsOf : List Occurrence → Option (List Lexeme) → Except PlanFailure (List Edit)}
    (hoffset : 0 ≤ o.offset) (hstop : o.stop ≤ source.length) (hbare : o.layout = [])
    (hlayout : layout = none ∨ layout = some [])
    (heditsOf : ∀ part, part.Sublist nested → ∀ layout, layout = none ∨ layout = some [] →
      ∀ {failure}, editsOf part layout = .error failure → OfRecord failure)
    (h : reassignmentEdit source editsOf o nested layout = .error failure) : OfRecord failure := by
  have hpart : ∀ {keep : Occurrence → Bool} {start stop : Int} {layout : Option (List Lexeme)},
      layout = none ∨ layout = some [] → ∀ {failure},
        renderWith source editsOf start stop (nested.filter keep) layout = .error failure →
          OfRecord failure :=
    fun hlayout _ h =>
      heditsOf _ List.filter_sublist _ hlayout (of_renderWith_eq_error hlayout h)
  rcases Except.bind_eq_error h with h | ⟨⟨operator, mark⟩, -, h⟩
  · exact ofRecord_of_findOperator hoffset hstop h
  dsimp only at h
  split at h
  · cases h
    exact ⟨_, rfl⟩
  rcases Except.bind_eq_error h with h | ⟨target, -, h⟩
  · exact hpart hlayout h
  cases layout with
  | none =>
      rcases Except.bind_eq_error h with h | ⟨copy, -, h⟩
      · exact hpart (.inr (congrArg some hbare)) h
      · rcases Except.bind_eq_error h with h | ⟨value, -, h⟩
        · exact hpart hlayout h
        · cases h
  | some lexemes =>
      rcases Except.bind_eq_error h with h | ⟨copy, -, h⟩
      · cases h
      · rcases Except.bind_eq_error h with h | ⟨value, -, h⟩
        · exact hpart hlayout h
        · cases h

/-- Where edits of records cannot be made, one of the records does not fit. -/
theorem ofRecord_of_edits (steps : Nat) {os : List Occurrence} {layout : Option (List Lexeme)}
    {failure : PlanFailure} (hsound : ∀ o ∈ os, Sound source o)
    (hlayout : layout = none ∨ layout = some [])
    (h : edits source steps os layout = .error failure) : OfRecord failure := by
  induction steps generalizing os layout failure with
  | zero => cases h
  | succ steps ih =>
      cases os with
      | nil => cases h
      | cons outer rest =>
          have houter := hsound outer List.mem_cons_self
          have hpart : ∀ part, part.Sublist rest → ∀ layout, layout = none ∨ layout = some [] →
              ∀ {failure}, edits source steps part layout = .error failure → OfRecord failure :=
            fun part hpart layout hlayout failure h =>
              ih (fun o ho => hsound o (List.mem_cons_of_mem outer (hpart.mem ho))) hlayout h
          rw [edits] at h
          split at h
          · cases h
            exact ⟨_, rfl⟩
          have hrest : ∀ {edit : Edit} {failure},
              (edits source steps (rest.dropWhile fun inner => inner.offset < outer.stop) layout >>=
                fun others => .ok (edit :: others)) = .error failure → OfRecord failure := by
            intro edit failure h
            rcases Except.bind_eq_error h with h | ⟨others, -, h⟩
            · exact hpart _ (List.dropWhile_sublist _) layout hlayout h
            · cases h
          cases hkind : outer.kind with
          | notEqual =>
              rw [hkind] at h
              rcases Except.bind_eq_error h with h | ⟨edit, -, h⟩
              · exact ofRecord_of_notEqualEdit h
              · exact hrest h
          | _ =>
              rw [hkind] at h
              rcases Except.bind_eq_error h with h | ⟨edit, -, h⟩
              · exact ofRecord_of_reassignmentEdit houter.offset_nonneg houter.stop_le
                  houter.layout_eq hlayout
                  (fun part hsublist => hpart part (hsublist.trans (List.takeWhile_sublist _))) h
              · exact hrest h

/-! ## Exact admission -/

/-- An admissible record fits the text. -/
theorem Admissible.fits (h : Occurrence.Admissible source os) (ho : o ∈ os)
    (hsound : Sound source o) : o.Fits source := by
  have hsugar := hsound.sugar
  cases hkind : o.kind with
  | notEqual =>
      have hstop : o.stop = o.offset + 2 := by
        rw [Occurrence.stop, hsound.length_notEqual hkind]
      have hpiece := (h.comparison o ho hkind).1
      rw [hstop] at hpiece
      exact hsound.fits (by omega) (fun _ => hpiece) (by rw [hkind]; simp)
  | reassignment =>
      have hoperator := (h.assignment o ho hkind).1
      obtain ⟨operator, mark, -, hlt, hle, -⟩ := (h.assignment o ho hkind).1
      exact hsound.fits (by omega) (by rw [hkind]; simp) fun _ => hoperator
  | shortIf => simp [isSugar, hkind] at hsugar

/-- An admissible record holds those inside it. -/
theorem Admissible.holds {inner : Occurrence} (h : Occurrence.Admissible source os) (ho : o ∈ os)
    (hsugar : isSugar o = true) (hinner : inner ∈ os) (hne : inner ≠ o) (hnests : o.Nests inner) :
    o.Holds inner := by
  have hkind : o.kind ≠ .notEqual :=
    fun hkind => hne ((h.comparison o ho hkind).2 inner hinner hnests)
  simp only [isSugar, Bool.or_eq_true, beq_iff_eq] at hsugar
  refine ⟨hnests.2, hkind, fun operator hoperator => ?_⟩
  have hbeside := (h.assignment o ho (hsugar.resolve_left hkind)).2 operator hoperator inner hinner
    hnests hne
  simpa [besideOperator] using hbeside

/-- In order, admissible records are arranged. -/
theorem Admissible.arranged (h : Occurrence.Admissible source os)
    (hsound : ∀ o ∈ os, Sound source o)
    (hsorted : os.Pairwise fun a b => Occurrence.precedes a b = true) : Arranged source os := by
  have hfits := fun o ho => Admissible.fits h ho (hsound o ho)
  refine ⟨hfits, List.Pairwise.imp_of_mem ?_ (h.compatible.and hsorted)⟩
  rintro a b ha hb ⟨hcompatible, hprecedes⟩
  have hle := Occurrence.offset_le_of_precedes hprecedes
  have hlt := (hfits b hb).placed.offset_lt
  rcases hcompatible.disjoint_or_nested with hbefore | hafter | hnests | hnested
  · exact .inl hbefore
  · omega
  · have hne : b ≠ a := fun heq => hcompatible.distinct (by rw [heq])
    exact .inr (Admissible.holds h ha (hsound a ha).sugar hb hne hnests)
  · -- The longer one of two that begin together comes first, so the spans are the same.
    refine absurd ?_ hcompatible.distinct
    obtain ⟨hoffset, hstop⟩ := hnested
    simp only [Occurrence.precedes, Occurrence.stop, Bool.or_eq_true, Bool.and_eq_true, beq_iff_eq,
      decide_eq_true_eq] at hprecedes hstop
    rw [Occurrence.span, Occurrence.span, Prod.mk.injEq, Occurrence.stop, Occurrence.stop]
    omega

/-- Of arranged records, one that is inside another is held by it. -/
theorem Arranged.holds_of_nests {inner : Occurrence} (h : Arranged source os)
    (hsound : ∀ o ∈ os, Sound source o) (ho : o ∈ os) (hinner : inner ∈ os) (hne : inner ≠ o)
    (hnests : o.Nests inner) : o.Holds inner := by
  have hlt := (h.fits o ho).placed.offset_lt
  have hltInner := (h.fits inner hinner).placed.offset_lt
  obtain ⟨hoffset, hstop⟩ := hnests
  have heither : os.Pairwise fun a b =>
      (a.stop ≤ b.offset ∨ a.Holds b) ∨ (b.stop ≤ a.offset ∨ b.Holds a) :=
    List.Pairwise.imp (fun h => .inl h) h.stacked
  have hsymm : Std.Symm fun a b : Occurrence =>
      (a.stop ≤ b.offset ∨ a.Holds b) ∨ (b.stop ≤ a.offset ∨ b.Holds a) := ⟨fun _ _ => Or.symm⟩
  rcases heither.forall ho hinner hne.symm with (hbefore | hholds) | (hafter | hheld)
  · omega
  · exact hholds
  · omega
  · exact absurd ⟨hoffset, hstop⟩
      (hheld.not_nests (h.fits inner hinner) (hsound inner hinner).sugar)

/-- Arranged records are admissible. -/
theorem Arranged.admissible (h : Arranged source os) (hsound : ∀ o ∈ os, Sound source o)
    (hsorted : os.Pairwise fun a b => a.offset ≤ b.offset) : Occurrence.Admissible source os where
  placed o ho := ⟨(hsound o ho).line_eq, (hsound o ho).column_eq, (hsound o ho).stop_le⟩
  compatible := by
    refine List.Pairwise.imp_of_mem ?_ (List.Pairwise.and h.stacked hsorted)
    rintro a b ha hb ⟨hpair, hle⟩
    have hlt := (h.fits a ha).placed.offset_lt
    rcases hpair with hbefore | hholds
    · refine ⟨fun heq => ?_, .inl hbefore⟩
      have := (Prod.mk.inj heq).1
      omega
    · refine ⟨fun heq => ?_, .inr (.inr (.inl ⟨hle, hholds.stop_le⟩))⟩
      obtain ⟨hoffset, hstop⟩ := Prod.mk.inj heq
      exact hholds.not_nests (h.fits a ha) (hsound a ha).sugar
        ⟨Int.le_of_eq hoffset.symm, Int.le_of_eq hstop⟩
  comparison o ho hkind := by
    have hstop : o.stop = o.offset + 2 := by
      rw [Occurrence.stop, (hsound o ho).length_notEqual hkind]
    refine ⟨hstop ▸ (h.fits o ho).comparison hkind, fun inner hinner hnests => ?_⟩
    refine Decidable.byContradiction fun hne => ?_
    exact (h.holds_of_nests hsound ho hinner hne hnests).not_notEqual hkind
  assignment o ho hkind := by
    refine ⟨(h.fits o ho).assignment hkind, fun operator hoperator inner hinner hnests hne => ?_⟩
    have hbeside := (h.holds_of_nests hsound ho hinner hne hnests).beside operator hoperator
    simpa [besideOperator] using hbeside

/-- Whether records are admissible does not depend on their order. -/
theorem Admissible.of_perm {others : List Occurrence} (h : Occurrence.Admissible source os)
    (hperm : others.Perm os) : Occurrence.Admissible source others where
  placed o ho := h.placed o (hperm.subset ho)
  compatible := (hperm.pairwise_iff Occurrence.Compatible.symm).mpr h.compatible
  comparison o ho hkind := by
    obtain ⟨hpiece, honly⟩ := h.comparison o (hperm.subset ho) hkind
    exact ⟨hpiece, fun inner hinner => honly inner (hperm.subset hinner)⟩
  assignment o ho hkind := by
    obtain ⟨hoperator, hbeside⟩ := h.assignment o (hperm.subset ho) hkind
    exact ⟨hoperator, fun operator hfound inner hinner =>
      hbeside operator hfound inner (hperm.subset hinner)⟩

theorem pairwise_sort (os : List Occurrence) :
    (Occurrence.sort os).Pairwise fun a b => Occurrence.precedes a b = true :=
  pairwise_sortBy Occurrence.precedes_trans Occurrence.precedes_total os

theorem pairwise_offset_sort (os : List Occurrence) :
    (Occurrence.sort os).Pairwise fun a b => a.offset ≤ b.offset :=
  (pairwise_sort os).imp Occurrence.offset_le_of_precedes

/-- Admissible records have one order. -/
theorem Admissible.sort_eq {others : List Occurrence} (h : Occurrence.Admissible source os)
    (hperm : others.Perm os) : Occurrence.sort others = Occurrence.sort os := by
  have hsymm : Std.Symm Occurrence.Compatible := ⟨fun _ _ => Occurrence.Compatible.symm⟩
  refine List.Perm.eq_of_pairwise (fun a b ha hb hab hba => ?_) (pairwise_sort others)
    (pairwise_sort os) (((sortBy_perm _ others).trans hperm).trans (sortBy_perm _ os).symm)
  -- Two that come before each other have one span, so they are one record.
  refine Decidable.byContradiction fun hne => ?_
  have hcompatible := h.compatible.forall (hperm.subset (mem_sortBy.mp ha)) (mem_sortBy.mp hb) hne
  refine hcompatible.distinct ?_
  simp only [Occurrence.precedes, Bool.or_eq_true, Bool.and_eq_true, beq_iff_eq,
    decide_eq_true_eq] at hab hba
  rw [Occurrence.span, Occurrence.span, Prod.mk.injEq, Occurrence.stop, Occurrence.stop]
  omega

theorem checkPosition_eq_ok_iff : checkPosition source o = .ok () ↔
    o.line = (source.lineAndColumn o.offset).1 ∧ o.column = (source.lineAndColumn o.offset).2 ∧
      o.stop ≤ source.length := by
  simp only [checkPosition]
  split
  · rename_i h
    exact iff_of_true rfl h
  · rename_i h
    exact iff_of_false (by simp) h

/-- Either records have edits and are admissible, or one of them does not fit. -/
theorem edits_cases (hsound : ∀ o ∈ os, Sound source o) :
    (Occurrence.Admissible source os ∧
        ∃ found, edits source os.length (Occurrence.sort os) none = .ok found) ∨
      ¬Occurrence.Admissible source os ∧
        ∃ error, edits source os.length (Occurrence.sort os) none = .error (.record error) := by
  have hsorted : ∀ o ∈ Occurrence.sort os, Sound source o := fun o ho => hsound o (mem_sortBy.mp ho)
  have hperm : (Occurrence.sort os).Perm os := sortBy_perm _ os
  cases hfound : edits source os.length (Occurrence.sort os) none with
  | ok found =>
      have harranged := arranged_of_edits (Nat.le_of_eq (length_sortBy _ _)) hsorted
        (pairwise_offset_sort os) hfound
      have hadmissible := harranged.admissible hsorted (pairwise_offset_sort os)
      exact .inl ⟨Admissible.of_perm hadmissible hperm.symm, found, rfl⟩
  | error failure =>
      refine .inr ⟨fun hadmissible => ?_, ?_⟩
      · have harranged := Admissible.arranged (Admissible.of_perm hadmissible hperm) hsorted
          (pairwise_sort os)
        obtain ⟨found, hok⟩ :
            ∃ found, edits source os.length (Occurrence.sort os) none = .ok found :=
          edits_eq_ok os.length (fun o ho => ⟨(hsorted o ho).sugar, harranged.fits o ho⟩)
            harranged.stacked nofun
        cases hok.symm.trans hfound
      · obtain ⟨error, rfl⟩ := ofRecord_of_edits os.length hsorted (.inl rfl) hfound
        exact ⟨error, rfl⟩

/-- Either records are admissible and their edits are the plan, or one of them does not fit. -/
theorem plan_cases (hbare : ∀ o ∈ os, o.Bare) :
    (Occurrence.Admissible source (os.filter isSugar) ∧
        (∀ o ∈ os.filter isSugar, Sound source o) ∧
        ∃ found, plan source os = .ok found ∧ edits source (os.filter isSugar).length
          (Occurrence.sort (os.filter isSugar)) none = .ok found) ∨
      ¬Occurrence.Admissible source (os.filter isSugar) ∧
        ∃ error, plan source os = .error (.record error) := by
  generalize hsugar : os.filter isSugar = sugar
  have hplan : plan source os = sugar.forM (checkPosition source) >>= fun _ =>
      edits source sugar.length (Occurrence.sort sugar) none := by
    rw [← hsugar]
    rfl
  rcases Except.forM_cases (checkPosition source) sugar with
    ⟨hall, hchecked⟩ | ⟨o, ho, e, hfails, herror⟩
  · have hsound : ∀ o ∈ sugar, Sound source o := by
      intro o ho
      obtain ⟨hmem, hkind⟩ := List.mem_filter.mp (hsugar ▸ ho)
      obtain ⟨hline, hcolumn, hstop⟩ := checkPosition_eq_ok_iff.mp (hchecked o ho)
      exact ⟨hbare o hmem, hkind, hline, hcolumn, hstop⟩
    rw [hall, ok_bind] at hplan
    rw [hplan]
    rcases edits_cases hsound with ⟨hadmissible, found, hfound⟩ | hnot
    · exact .inl ⟨hadmissible, hsound, found, hfound, hfound⟩
    · exact .inr hnot
  · refine .inr ⟨fun hadmissible => ?_, ?_⟩
    · cases hfails.symm.trans (checkPosition_eq_ok_iff.mpr (hadmissible.placed o ho))
    · obtain ⟨error, rfl⟩ := ofRecord_of_checkPosition hfails
      exact ⟨error, by rw [hplan, herror]; rfl⟩

/-- Edits that replace records in a row are apart, and where the records are. -/
theorem Outermost.apart (h : Outermost os found) (hfits : ∀ o ∈ os, o.Fits source) :
    (found.Pairwise fun a b => a.stop ≤ b.start) ∧
      ∀ edit ∈ found, 0 ≤ edit.start ∧ edit.start < edit.stop ∧ edit.stop ≤ source.length := by
  obtain ⟨outermost, hspans, hordered, hmem⟩ := h
  constructor
  · have hmapped : (found.map Edit.span).Pairwise fun a b => a.2 ≤ b.1 := by
      rw [hspans]
      exact List.pairwise_map.mpr hordered
    exact List.pairwise_map.mp hmapped
  · intro edit hedit
    have hspan : edit.span ∈ outermost.map Occurrence.span := hspans ▸ List.mem_map_of_mem hedit
    obtain ⟨o, ho, hspan⟩ := List.mem_map.mp hspan
    obtain ⟨hstart, hstop⟩ := Prod.mk.inj hspan
    have hplaced := (hfits o ((hmem o).mp ho).1).placed
    rw [← hstart, ← hstop]
    exact ⟨hplaced.offset_nonneg, hplaced.offset_lt, hplaced.stop_le⟩

end Desugar

/-- Records are desugared just when they are admissible; otherwise the failure says that a
record does not fit.  The edits replace the outermost records, one each, from left to right,
and the order in which the records are given has no influence. -/
theorem admission_is_exact {source : Source} {os : List Occurrence} (hbare : ∀ o ∈ os, o.Bare) :
    ((∃ found, plan source os = .ok found) ↔
      Occurrence.Admissible source (os.filter isSugar)) ∧
    (¬Occurrence.Admissible source (os.filter isSugar) →
      ∃ error, plan source os = .error (.record error)) ∧
    ∀ found, plan source os = .ok found →
      Outermost (os.filter isSugar) found ∧
      (found.Pairwise fun a b => a.stop ≤ b.start) ∧
      (∀ edit ∈ found, 0 ≤ edit.start ∧ edit.start < edit.stop ∧ edit.stop ≤ source.length) ∧
      ∀ others, others.Perm os → plan source others = .ok found := by
  rcases plan_cases hbare with ⟨hadmissible, hsound, found, hplan, hedits⟩ | ⟨hnot, error, hplan⟩
  · refine ⟨iff_of_true ⟨found, hplan⟩ hadmissible, fun hnot => absurd hadmissible hnot, ?_⟩
    intro other hother
    cases hplan.symm.trans hother
    have hsorted : ∀ o ∈ Occurrence.sort (os.filter isSugar), Sound source o :=
      fun o ho => hsound o (mem_sortBy.mp ho)
    have harranged := Admissible.arranged
      (Admissible.of_perm hadmissible (sortBy_perm Occurrence.precedes _)) hsorted (pairwise_sort _)
    have houtermost := outermost_of_edits (Nat.le_of_eq (length_sortBy _ _)) hsorted harranged
      (pairwise_offset_sort _) hedits
    replace houtermost := houtermost.congr fun o => mem_sortBy
    obtain ⟨hpairwise, hinside⟩ := houtermost.apart fun o ho =>
      harranged.fits o (mem_sortBy.mpr ho)
    refine ⟨houtermost, hpairwise, hinside, fun others hperm => ?_⟩
    have hfiltered : (others.filter isSugar).Perm (os.filter isSugar) := hperm.filter isSugar
    rcases @plan_cases source others fun o ho => hbare o (hperm.subset ho) with
      ⟨-, -, permuted, hpermuted, heditsOthers⟩ | ⟨hnot, -⟩
    · rw [Admissible.sort_eq hadmissible hfiltered, hfiltered.length_eq] at heditsOthers
      rw [hpermuted, ← hedits, ← heditsOthers]
    · exact absurd (Admissible.of_perm hadmissible hfiltered) hnot
  · refine ⟨iff_of_false (fun ⟨found, hfound⟩ => ?_) hnot, fun _ => ⟨error, hplan⟩,
      fun found hfound => ?_⟩
    · cases hplan.symm.trans hfound
    · cases hplan.symm.trans hfound

/-- A comparison in the value of a compound assignment, in both orders. -/
theorem admission_is_exact_nested :
    Occurrence.Admissible (.ofString "a+=b!=c" "cart")
      [⟨.notEqual, 4, 1, 5, 2, "!=".toList, none, []⟩,
        ⟨.reassignment, 0, 1, 1, 7, "a+=b!=c".toList, some 1, []⟩] ∧
    plan (.ofString "a+=b!=c" "cart")
      [⟨.reassignment, 0, 1, 1, 7, "a+=b!=c".toList, some 1, []⟩,
        ⟨.notEqual, 4, 1, 5, 2, "!=".toList, none, []⟩] = .ok [⟨0, 7, "a=a+(b~=c)".toList⟩] := by
  have hbare : ∀ o ∈ ([⟨.notEqual, 4, 1, 5, 2, "!=".toList, none, []⟩,
      ⟨.reassignment, 0, 1, 1, 7, "a+=b!=c".toList, some 1, []⟩] : List Occurrence), o.Bare := by
    simp only [List.forall_mem_cons]
    exact ⟨⟨by decide, by decide, fun _ => rfl, rfl⟩, ⟨by decide, by decide, nofun, rfl⟩, nofun⟩
  have hplan : plan (.ofString "a+=b!=c" "cart")
      [⟨.notEqual, 4, 1, 5, 2, "!=".toList, none, []⟩,
        ⟨.reassignment, 0, 1, 1, 7, "a+=b!=c".toList, some 1, []⟩] =
          .ok [⟨0, 7, "a=a+(b~=c)".toList⟩] := rfl
  obtain ⟨hiff, -, hfound⟩ := @admission_is_exact (.ofString "a+=b!=c" "cart") _ hbare
  exact ⟨hiff.mp ⟨_, hplan⟩, (hfound _ hplan).2.2.2 _ (.swap _ _ _)⟩

end CartLua
