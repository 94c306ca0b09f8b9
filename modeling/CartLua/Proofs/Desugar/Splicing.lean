import Mathlib.Algebra.Ring.Int.Defs
import CartLua.Proofs.Desugar.Rendering

/-!
# Laws of splicing

A sweep over a text from left to right is meant to do what the edits do one by one.  For edits that
lie in order in a range it does: the sweep gives what the edits give when the last one is made
first, so that none of them moves the places of those still to come.  The sweep over a range can
also be cut in two between edits, and its length is known from the lengths of the edits alone.

Edits that touch and edits that replace nothing are allowed.  A cut may run along the border of an
edit, but not through a place where something is only put in, for it would not say on which side of
the cut it goes.
-/

namespace CartLua

namespace Edit

/-- Whether edits lie in a range, each of them before the next. -/
structure Arranged (start stop : Int) (edits : List Edit) : Prop where
  inside : ∀ edit ∈ edits, start ≤ edit.start ∧ edit.start ≤ edit.stop ∧ edit.stop ≤ stop
  ordered : edits.Pairwise fun earlier later => earlier.stop ≤ later.start

/-- Whether a place is neither inside an edit nor where an edit replaces nothing. -/
def Cuttable (edits : List Edit) (place : Int) : Prop :=
  ∀ edit ∈ edits, ¬(edit.start < place ∧ place < edit.stop) ∧
    ¬(edit.start = place ∧ edit.stop = place)

instance (start stop : Int) (edits : List Edit) : Decidable (Arranged start stop edits) :=
  decidable_of_iff
    ((∀ edit ∈ edits, start ≤ edit.start ∧ edit.start ≤ edit.stop ∧ edit.stop ≤ stop) ∧
      edits.Pairwise fun earlier later => earlier.stop ≤ later.start)
    ⟨fun h => ⟨h.1, h.2⟩, fun h => ⟨h.inside, h.ordered⟩⟩

instance (edits : List Edit) (place : Int) : Decidable (Cuttable edits place) :=
  inferInstanceAs (Decidable (∀ edit ∈ edits, _))

/-- A text that begins at the position `origin` of a larger one, after one edit. -/
def applyFrom (origin : Int) (edit : Edit) (text : List Char) : List Char :=
  text.take (edit.start - origin).toNat ++ edit.replacement ++ text.drop (edit.stop - origin).toNat

/-- How much longer an edit makes a text. -/
def growth (edit : Edit) : Int := edit.replacement.length - (edit.stop - edit.start)

variable {text : Array Char} {gap : List Char → List Char} {start stop cursor mid : Int}
  {edit : Edit} {edits : List Edit}

/-- Behind its first edit, the other edits lie in what is left of a range. -/
theorem Arranged.tail (h : Arranged start stop (edit :: edits)) :
    Arranged edit.stop stop edits := by
  have hlater := List.pairwise_cons.mp h.ordered
  refine ⟨fun other hother => ?_, hlater.2⟩
  have hinside := h.inside other (List.mem_cons_of_mem edit hother)
  exact ⟨hlater.1 other hother, hinside.2⟩

/-- Put behind what comes before it, a text changes where the edit says. -/
theorem applyFrom_piece_append (hstart : 0 ≤ start) (hbefore : start ≤ edit.start)
    (hle : edit.start ≤ edit.stop) (hstop : edit.stop ≤ text.size) (rest : List Char) :
    edit.applyFrom start (Position.piece text start edit.stop ++ rest) =
      Position.piece text start edit.start ++ edit.replacement ++ rest := by
  have hstartLength : (edit.start - start).toNat =
      (Position.piece text start edit.start).length := by
    have := Position.length_piece text hstart hbefore (Int.le_trans hle hstop)
    omega
  have hstopLength : (edit.stop - start).toNat =
      (Position.piece text start edit.stop).length := by
    have := Position.length_piece text hstart (Int.le_trans hbefore hle) hstop
    omega
  have htake : (Position.piece text start edit.stop ++ rest).take (edit.start - start).toNat =
      Position.piece text start edit.start := by
    rw [← Position.piece_append hstart hbefore hle, List.append_assoc, hstartLength,
      List.take_left]
  rw [applyFrom, htake, hstopLength, List.drop_left]

/-- A sweep that starts behind the beginning of a range leaves what it has passed, and does to the
rest what the edits do one by one, the last one first. -/
theorem foldr_applyFrom_eq (hstart : 0 ≤ start) (hstop : stop ≤ text.size) (hbegin : start ≤ cursor)
    (hcursor : cursor ≤ stop) (h : Arranged cursor stop edits) :
    edits.foldr (applyFrom start) (Position.piece text start stop) =
      Position.piece text start cursor ++ splice text keep stop cursor edits := by
  induction edits generalizing cursor with
  | nil => exact (Position.piece_append hstart hbegin hcursor).symm
  | cons edit edits ih =>
      obtain ⟨hbefore, hle, hinside⟩ := h.inside edit List.mem_cons_self
      have hothers := ih (by omega) hinside h.tail
      calc (edit :: edits).foldr (applyFrom start) (Position.piece text start stop)
          = edit.applyFrom start (Position.piece text start edit.stop ++
              splice text keep stop edit.stop edits) := by rw [List.foldr_cons, hothers]
        _ = Position.piece text start edit.start ++ edit.replacement ++
              splice text keep stop edit.stop edits :=
            applyFrom_piece_append hstart (by omega) hle (by omega) _
        _ = Position.piece text start cursor ++ (Position.piece text cursor edit.start ++
              (edit.replacement ++ splice text keep stop edit.stop edits)) := by
            rw [← Position.piece_append hstart hbegin hbefore]
            simp only [List.append_assoc]

/-- When the first edit lies behind a place, all of them do. -/
theorem filter_of_le_start (h : Arranged start stop (edit :: edits)) (hmid : mid ≤ edit.start)
    (hbehind : mid < edit.stop) :
    (edit :: edits).filter (fun other => other.stop ≤ mid) = [] ∧
      (edit :: edits).filter (fun other => mid ≤ other.start) = edit :: edits := by
  have hlater := (List.pairwise_cons.mp h.ordered).1
  have hall : ∀ other ∈ edit :: edits, mid ≤ other.start ∧ mid < other.stop := by
    refine List.forall_mem_cons.mpr ⟨⟨hmid, hbehind⟩, fun other hother => ?_⟩
    have hafter := hlater other hother
    have hinside := h.inside other (List.mem_cons_of_mem edit hother)
    omega
  refine ⟨List.filter_eq_nil_iff.mpr fun other hother => ?_,
    List.filter_eq_self.mpr fun other hother => ?_⟩
  · have := (hall other hother).2
    simp only [decide_eq_true_eq]
    omega
  · simpa using (hall other hother).1

/-- A sweep is cut in two where no edit is cut. -/
theorem splice_cut (hgap : ∀ as bs, gap (as ++ bs) = gap as ++ gap bs) (hcursor : 0 ≤ cursor)
    (hmid : cursor ≤ mid) (hstop : mid ≤ stop) (h : Arranged cursor stop edits)
    (hcut : Cuttable edits mid) :
    splice text gap stop cursor edits =
      splice text gap mid cursor (edits.filter fun edit => edit.stop ≤ mid) ++
        splice text gap stop mid (edits.filter fun edit => mid ≤ edit.start) := by
  induction edits generalizing cursor with
  | nil => exact splice_advance hgap hcursor hmid hstop (by simp)
  | cons edit edits ih =>
      obtain ⟨hbefore, hle, -⟩ := h.inside edit List.mem_cons_self
      obtain ⟨hacross, hempty⟩ := hcut edit List.mem_cons_self
      by_cases hdone : edit.stop ≤ mid
      · have hothers := ih (by omega) hdone h.tail fun other hother =>
          hcut other (List.mem_cons_of_mem edit hother)
        -- An edit that ends before the cut does not begin behind it unless it is empty there.
        have hleft : ¬mid ≤ edit.start := by omega
        rw [List.filter_cons_of_pos (by simpa using hdone),
          List.filter_cons_of_neg (by simpa using hleft), splice_cons, splice_cons, hothers]
        simp only [List.append_assoc]
      · -- From here on all edits lie behind the cut, and the sweep only passes it.
        have hahead : mid ≤ edit.start := by omega
        obtain ⟨hnone, hall⟩ := filter_of_le_start h hahead (Int.not_le.mp hdone)
        rw [hnone, hall, splice_nil]
        refine splice_advance hgap hcursor hmid hstop fun other hother => ?_
        rw [← hall] at hother
        simpa using (List.mem_filter.mp hother).2

/-- A sweep makes a range longer by as much as its edits do. -/
theorem length_splice (hgap : ∀ kept, (gap kept).length = kept.length) (hcursor : 0 ≤ cursor)
    (hle : cursor ≤ stop) (hstop : stop ≤ text.size) (h : Arranged cursor stop edits) :
    ((splice text gap stop cursor edits).length : Int) =
      (stop - cursor) + (edits.map growth).sum := by
  induction edits generalizing cursor with
  | nil =>
      rw [splice_nil, hgap, Position.length_piece text hcursor hle hstop, List.map_nil,
        List.sum_nil, Int.add_zero]
  | cons edit edits ih =>
      obtain ⟨hbefore, hspan, hinside⟩ := h.inside edit List.mem_cons_self
      have hothers := ih (by omega) hinside h.tail
      have hkept := Position.length_piece text hcursor hbefore (by omega)
      rw [splice_cons, List.length_append, List.length_append, hgap, List.map_cons, List.sum_cons,
        growth]
      push_cast
      omega

end Edit

open Edit in
/-- Edits that lie in order in a range of a text do the same in one sweep as one by one, the last
one first.  With or without line breaks turned into spaces, the sweep over the range is the sweeps
over its two parts wherever no edit is cut, and it changes the length of the range by what each edit
puts in and takes out. -/
theorem splice_acts_edit_by_edit (text : Array Char) {start stop : Int} {edits : List Edit}
    (hstart : 0 ≤ start) (hle : start ≤ stop) (hstop : stop ≤ text.size)
    (h : Arranged start stop edits) :
    splice text keep stop start edits =
        edits.foldr (applyFrom start) (Position.piece text start stop) ∧
      ∀ gap, gap = keep ∨ gap = OneLine.spaced →
        (∀ mid, start ≤ mid → mid ≤ stop → Cuttable edits mid →
          splice text gap stop start edits =
            splice text gap mid start (edits.filter fun edit => edit.stop ≤ mid) ++
              splice text gap stop mid (edits.filter fun edit => mid ≤ edit.start)) ∧
        ((splice text gap stop start edits).length : Int) =
          (stop - start) + (edits.map growth).sum := by
  have hnone : Position.piece text start start = [] := by
    obtain ⟨start, rfl⟩ := Int.eq_ofNat_of_zero_le hstart
    simp
  refine ⟨?_, fun gap hgap => ?_⟩
  · rw [foldr_applyFrom_eq hstart hstop (Int.le_refl start) hle h, hnone, List.nil_append]
  · have happend : ∀ as bs, gap (as ++ bs) = gap as ++ gap bs := by
      rcases hgap with rfl | rfl
      · exact fun _ _ => rfl
      · exact OneLine.spaced_append
    have hlength : ∀ kept, (gap kept).length = kept.length := by
      rcases hgap with rfl | rfl
      · exact fun _ => rfl
      · exact OneLine.length_spaced
    exact ⟨fun mid hmid hmidStop hcut => splice_cut happend hstart hmid hmidStop h hcut,
      length_splice hlength hstart hle hstop h⟩

open Edit in
/-- Edits that touch, that only put in and that stand at both ends of the range, cut where one of
them begins. -/
theorem splice_acts_edit_by_edit_touching :
    let text := "a\r\nb != c".toList.toArray
    let edits : List Edit :=
      [⟨1, 1, ['x']⟩, ⟨1, 3, []⟩, ⟨5, 7, ['~', '=']⟩, ⟨7, 7, ['(']⟩, ⟨9, 9, [')', '\n']⟩]
    (0 : Int) ≤ 1 ∧ (1 : Int) ≤ 9 ∧ (9 : Int) ≤ text.size ∧ Arranged 1 9 edits ∧
      Cuttable edits 5 ∧
      splice text keep 9 1 edits =
        edits.foldr (applyFrom 1) (Position.piece text 1 9) ∧
      splice text OneLine.spaced 9 1 edits =
        splice text OneLine.spaced 5 1 (edits.filter fun edit => edit.stop ≤ 5) ++
          splice text OneLine.spaced 9 5 (edits.filter fun edit => 5 ≤ edit.start) ∧
      ((splice text OneLine.spaced 9 1 edits).length : Int) = (9 - 1) + (edits.map growth).sum := by
  intro text edits
  have harranged : Arranged 1 9 edits := by decide
  have hcut : Cuttable edits 5 := by decide
  have hlaws := splice_acts_edit_by_edit text (by decide) (by decide) (by decide) harranged
  obtain ⟨hsplit, hlength⟩ := hlaws.2 OneLine.spaced (.inr rfl)
  exact ⟨by decide, by decide, by decide, harranged, hcut, hlaws.1,
    hsplit 5 (by decide) (by decide) hcut, hlength⟩

end CartLua
