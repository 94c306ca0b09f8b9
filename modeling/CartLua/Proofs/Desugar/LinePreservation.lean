import CartLua.Proofs.Desugar.LineKeeping
import CartLua.Proofs.Fix.Outcome

/-!
# Desugaring keeps lines

What is recorded of an accepted text becomes edits that keep lines: a comparison has no
line feed, and a compound assignment is written as its target, a second copy of the
target on one line, and its value.
-/

namespace CartLua

open Desugar Dialect

theorem Except.bind_eq_ok {ε α β : Type} {x : Except ε α} {next : α → Except ε β} {b : β}
    (h : (x >>= next) = .ok b) : ∃ a, x = .ok a ∧ next a = .ok b := by
  cases x with
  | ok a => exact ⟨a, rfl, h⟩
  | error e => cases h

namespace Desugar

variable {source : Source}

/-- The edits of the occurrences in a range, put into its text. -/
def renderWith (source : Source)
    (editsOf : List Occurrence → Option (List Lexeme) → Except PlanFailure (List Edit))
    (start stop : Int) (inside : List Occurrence) (layout : Option (List Lexeme)) :
    Except PlanFailure (List Char) :=
  editsOf inside layout >>= fun found => render source start stop found layout

/-- What an edit of a compound assignment is made of. -/
theorem reassignmentEdit_eq
    {editsOf : List Occurrence → Option (List Lexeme) → Except PlanFailure (List Edit)}
    {o : Occurrence} {nested : List Occurrence} {layout : Option (List Lexeme)} {edit : Edit}
    (h : reassignmentEdit source editsOf o nested layout = .ok edit) :
    ∃ operator mark target copy value, findOperator source o = .ok (operator, mark) ∧
      (∀ inner ∈ nested, besideOperator operator inner = true) ∧
      renderWith source editsOf o.offset operator
        (nested.filter fun inner => inner.stop ≤ operator) layout = .ok target ∧
      renderWith source editsOf o.offset operator
        (nested.filter fun inner => inner.stop ≤ operator)
        (some (layout.getD o.layout)) = .ok copy ∧
      renderWith source editsOf (operator + 2) o.stop
        (nested.filter fun inner => operator < inner.stop) layout = .ok value ∧
      edit = ⟨o.offset, o.stop, target ++ '=' :: (copy ++ mark :: '(' :: (value ++ [')']))⟩ := by
  obtain ⟨⟨operator, mark⟩, hfound, h⟩ := Except.bind_eq_ok h
  dsimp only at h
  split at h
  · cases h
  · rename_i hbeside
    rw [List.find?_eq_none] at hbeside
    have hsides : ∀ inner ∈ nested, besideOperator operator inner = true := by
      intro inner hinner
      simpa using hbeside inner hinner
    obtain ⟨target, htarget, h⟩ := Except.bind_eq_ok h
    cases layout with
    | none =>
        obtain ⟨copy, hcopy, h⟩ := Except.bind_eq_ok h
        obtain ⟨value, hvalue, h⟩ := Except.bind_eq_ok h
        cases h
        exact ⟨operator, mark, target, copy, value, hfound, hsides, htarget, hcopy, hvalue, rfl⟩
    | some lexemes =>
        obtain ⟨copy, hcopy, h⟩ := Except.bind_eq_ok h
        obtain ⟨value, hvalue, h⟩ := Except.bind_eq_ok h
        cases hcopy
        cases h
        exact ⟨operator, mark, target, target, value, hfound, hsides, htarget, htarget, hvalue, rfl⟩

/-- What the edits of occurrences are made of. -/
theorem edits_cons_eq {steps : Nat} {outer : Occurrence} {rest : List Occurrence}
    {layout : Option (List Lexeme)} {found : List Edit}
    (h : edits source (steps + 1) (outer :: rest) layout = .ok found) :
    ∃ edit others, found = edit :: others ∧
      (∀ inner ∈ rest.takeWhile (fun inner => inner.offset < outer.stop),
        inner.stop ≤ outer.stop) ∧
      edits source steps (rest.dropWhile fun inner => inner.offset < outer.stop) layout =
        .ok others ∧
      (outer.kind = .notEqual ∧ edit = ⟨outer.offset, outer.offset + 2, ['~', '=']⟩ ∧
          source.piece outer.offset (outer.offset + 2) = ['!', '='] ∧
          rest.takeWhile (fun inner => inner.offset < outer.stop) = [] ∨
        outer.kind ≠ .notEqual ∧ reassignmentEdit source (edits source steps) outer
          (rest.takeWhile fun inner => inner.offset < outer.stop) layout = .ok edit) := by
  rw [edits] at h
  split at h
  · cases h
  · rename_i hnone
    have hinside : ∀ inner ∈ rest.takeWhile (fun inner => inner.offset < outer.stop),
        inner.stop ≤ outer.stop := by
      intro inner hinner
      simpa using List.find?_eq_none.mp hnone inner hinner
    cases hkind : outer.kind with
    | notEqual =>
        rw [hkind] at h
        obtain ⟨edit, hedit, h⟩ := Except.bind_eq_ok h
        obtain ⟨others, hothers, h⟩ := Except.bind_eq_ok h
        cases h
        refine ⟨edit, others, rfl, hinside, hothers, .inl ⟨rfl, ?_⟩⟩
        simp only [notEqualEdit] at hedit
        split at hedit
        · rename_i hfound
          split at hedit <;> cases hedit
          rename_i hnil _
          exact ⟨rfl, hfound, hnil⟩
        · cases hedit
    | _ =>
        rw [hkind] at h
        obtain ⟨edit, hedit, h⟩ := Except.bind_eq_ok h
        obtain ⟨others, hothers, h⟩ := Except.bind_eq_ok h
        cases h
        exact ⟨edit, others, rfl, hinside, hothers, .inr ⟨by decide, hedit⟩⟩

theorem mark_of_findOperator {o : Occurrence} {operator : Int} {mark : Char}
    (h : findOperator source o = .ok (operator, mark)) :
    o.operator = some operator ∧ o.offset < operator ∧ operator + 2 ≤ o.stop ∧
      operators.contains mark = true ∧ Position.char? source.text operator = some mark ∧
      Position.char? source.text (operator + 1) = some '=' := by
  rw [findOperator] at h
  split at h
  · rename_i found hoperator
    split at h
    · rename_i hrange
      split at h
      · rename_i c hc
        split at h
        · rename_i hmark
          cases h
          simp only [Bool.and_eq_true, beq_iff_eq] at hmark
          exact ⟨hoperator, hrange.1, hrange.2, hmark.1, hc, hmark.2⟩
        · cases h
      · cases h
    · cases h
  · cases h

/-! ## The second copy -/

/-- Whether every edit is written without a line end. -/
def UnbrokenEdits (found : List Edit) : Prop := ∀ edit ∈ found, Unbroken edit.replacement

theorem unbroken_spaced (cs : List Char) : Unbroken (OneLine.spaced cs) :=
  fun _ hc => OneLine.not_isLineEnd_of_mem_spaced hc

theorem unbroken_splice {text : Array Char} {cursor stop : Int} {found : List Edit}
    (hfound : UnbrokenEdits found) :
    Unbroken (Edit.splice text OneLine.spaced stop cursor found) := by
  induction found generalizing cursor with
  | nil => exact unbroken_spaced _
  | cons edit found ih =>
      exact .append (unbroken_spaced _) (.append (hfound edit List.mem_cons_self)
        (ih fun other hother => hfound other (List.mem_cons_of_mem edit hother)))

/-- The edits of a layout have no line end. -/
theorem unbroken_layoutEdits {start stop : Int} {found : List Edit} {layout : List Lexeme}
    (hlayout : ∀ lexeme ∈ layout, lexeme.FlattensOnLine source) {flattened : List Edit}
    (h : layoutEdits source start stop found layout = .ok flattened) : UnbrokenEdits flattened := by
  induction layout generalizing flattened with
  | nil =>
      cases h
      exact fun _ h => absurd h List.not_mem_nil
  | cons lexeme layout ih =>
      have hothers := fun other hother => hlayout other (List.mem_cons_of_mem lexeme hother)
      rw [layoutEdits] at h
      split at h
      · exact ih hothers h
      · obtain ⟨replacement, hreplacement, h⟩ := Except.bind_eq_ok h
        cases replacement with
        | none => exact ih hothers h
        | some replacement =>
            obtain ⟨rest, hrest, h⟩ := Except.bind_eq_ok h
            cases h
            intro edit hedit
            rcases List.mem_cons.mp hedit with rfl | hedit
            · exact hlayout lexeme List.mem_cons_self replacement hreplacement
            · exact ih hothers hrest edit hedit

theorem unbroken_render {start stop : Int} {found : List Edit} (hfound : UnbrokenEdits found)
    {lexemes : List Lexeme} (hlexemes : ∀ lexeme ∈ lexemes, lexeme.FlattensOnLine source)
    {rendered : List Char}
    (h : render source start stop found (some lexemes) = .ok rendered) : Unbroken rendered := by
  obtain ⟨flattened, hflattened, h⟩ := Except.bind_eq_ok h
  cases h
  apply unbroken_splice
  intro edit hedit
  rcases List.mem_append.mp (mem_sortBy.mp hedit) with hedit | hedit
  · exact hfound edit hedit
  · exact unbroken_layoutEdits hlexemes hflattened edit hedit

theorem not_isLineEnd_of_operators {mark : Char} (h : operators.contains mark = true) :
    OneLine.isLineEnd mark = false := by
  have hall : operators.all (fun c => !OneLine.isLineEnd c) = true := by decide
  simpa using List.all_eq_true.mp hall mark (List.contains_iff_mem.mp h)

/-- With a layout, everything that occurrences become stands on one line. -/
theorem unbroken_edits {lexemes : List Lexeme}
    (hlexemes : ∀ lexeme ∈ lexemes, lexeme.FlattensOnLine source) (steps : Nat)
    {os : List Occurrence} {found : List Edit}
    (h : edits source steps os (some lexemes) = .ok found) : UnbrokenEdits found := by
  induction steps generalizing os found with
  | zero =>
      cases h
      exact fun _ h => absurd h List.not_mem_nil
  | succ steps ih =>
      cases os with
      | nil =>
          cases h
          exact fun _ h => absurd h List.not_mem_nil
      | cons outer rest =>
          obtain ⟨edit, others, rfl, -, hothers, hedit⟩ := edits_cons_eq h
          have hrender : ∀ {start stop : Int} {inside : List Occurrence} {rendered : List Char},
              renderWith source (edits source steps) start stop inside (some lexemes) =
                .ok rendered → Unbroken rendered := by
            intro start stop inside rendered hrendered
            obtain ⟨inner, hinner, hrendered⟩ := Except.bind_eq_ok hrendered
            exact unbroken_render (ih hinner) hlexemes hrendered
          intro other hother
          rcases List.mem_cons.mp hother with rfl | hother
          · rcases hedit with ⟨-, rfl, -⟩ | ⟨-, hassigned⟩
            · exact .cons rfl (.cons rfl .nil)
            · obtain ⟨operator, mark, target, copy, value, hoperator, -, htarget, hcopy, hvalue,
                rfl⟩ := reassignmentEdit_eq hassigned
              have hmark := not_isLineEnd_of_operators (mark_of_findOperator hoperator).2.2.2.1
              exact .append (hrender htarget) (.cons rfl (.append (hrender hcopy) (.cons hmark
                (.cons rfl (.append (hrender hvalue) (.cons rfl .nil))))))
          · exact ih hothers other hother

/-! ## The first copy and the value -/

/-- Whether an edit covers one of some occurrences. -/
def Covers (os : List Occurrence) (edit : Edit) : Prop :=
  ∃ o ∈ os, edit.start = o.offset ∧ edit.stop = o.stop

/-- The piece between the target and the value is the operator. -/
theorem piece_of_findOperator {o : Occurrence} {operator : Int} {mark : Char} (ho : 0 ≤ o.offset)
    (h : findOperator source o = .ok (operator, mark)) :
    Position.piece source.text operator (operator + 2) = [mark, '='] := by
  obtain ⟨-, hlt, -, -, hmark, hsign⟩ := mark_of_findOperator h
  obtain ⟨operator, rfl⟩ := Int.eq_ofNat_of_zero_le (Int.le_trans ho (Int.le_of_lt hlt))
  have hsecond : source.text[operator + 1]? = some '=' :=
    (Position.char?_natCast source.text (operator + 1)).symm.trans hsign
  rw [Position.char?_natCast] at hmark
  obtain ⟨hsize, heq⟩ := Array.getElem?_eq_some_iff.mp hsecond
  have hpiece := Position.piece_natCast source.text operator (operator + 2)
  rw [show (((operator + 2 : Nat)) : Int) = (operator : Int) + 2 by omega] at hpiece
  rw [hpiece]
  apply List.ext_getElem?
  intro k
  rw [Array.getElem?_toList, Array.getElem?_extract]
  match k with
  | 0 => rw [if_pos (by omega), Nat.add_zero, hmark]; rfl
  | 1 => rw [if_pos (by omega), hsecond]; rfl
  | k + 2 => rw [if_neg (by omega)]; rfl

/-- Whether a text has a compound assignment written out: its target, a second copy of the
target on one line, and its value in brackets.  Both copies have the occurrences inside the
target written out as well. -/
def WrittenOut (source : Source) (os : List Occurrence) (o : Occurrence) (output : List Char) :
    Prop :=
  ∃ operator mark inside steps target copy value before after,
    o.operator = some operator ∧
    (∀ inner, inner ∈ inside ↔ inner ∈ os ∧ inner.Within o ∧ inner.stop ≤ operator) ∧
    inside.length ≤ steps ∧
    renderWith source (edits source steps) o.offset operator inside none = .ok target ∧
    renderWith source (edits source steps) o.offset operator inside (some o.layout) = .ok copy ∧
    Unbroken copy ∧
    output = before ++ (target ++ '=' :: (copy ++ mark :: '(' :: (value ++ ')' :: after)))

/-- What is written out in a part is written out in the whole. -/
theorem WrittenOut.of_part {os part : List Occurrence} {o : Occurrence} {text : List Char}
    (h : WrittenOut source part o text) (hpart : part ⊆ os)
    (hinner : ∀ inner ∈ os, inner.Within o → inner ∈ part) (before after : List Char) :
    WrittenOut source os o (before ++ (text ++ after)) := by
  obtain ⟨operator, mark, inside, steps, target, copy, value, before', after', hoperator, hinside,
    hsteps, htarget, hcopy, hunbroken, rfl⟩ := h
  refine ⟨operator, mark, inside, steps, target, copy, value, before ++ before', after' ++ after,
    hoperator, fun inner => ?_, hsteps, htarget, hcopy, hunbroken, by simp⟩
  rw [hinside inner]
  constructor
  · exact fun ⟨hmem, hwithin⟩ => ⟨hpart hmem, hwithin⟩
  · exact fun ⟨hmem, hwithin⟩ => ⟨hinner inner hmem hwithin.1, hwithin⟩

end Desugar

/-- Whether an occurrence is what it stands for, and can be written on one line. -/
structure Occurrence.FitsOnLine (source : Source) (o : Occurrence) : Prop
    extends o.Fits source where
  two_characters : o.kind = .notEqual → o.stop = o.offset + 2
  layout_flat : ∀ lexeme ∈ o.layout, lexeme.FlattensOnLine source

namespace Desugar

/-- What is known of occurrences that become edits. -/
structure Ready (source : Source) (os : List Occurrence) : Prop where
  fits : ∀ o ∈ os, isSugar o = true ∧ o.FitsOnLine source
  laid : Occurrence.Laid os
  sorted : os.Pairwise fun a b => a.offset ≤ b.offset

theorem Ready.sublist {os part : List Occurrence} (h : Ready source os) (hpart : part.Sublist os) :
    Ready source part where
  fits o ho := h.fits o (hpart.mem ho)
  laid := h.laid.sublist hpart
  sorted := h.sorted.sublist hpart

/-- What edits of occurrences between two positions do: they keep lines, cover the
occurrences, and write out the compound assignments among them. -/
structure Preserves (source : Source) (os : List Occurrence) (cursor stop : Int)
    (found : List Edit) : Prop where
  keepLines : Edit.KeepLines source.text stop cursor found
  covers : ∀ edit ∈ found, Covers os edit
  writtenOut : ∀ o ∈ os, o.kind = .reassignment →
    WrittenOut source os o (Edit.splice source.text Edit.keep stop cursor found)

/-- Edits between two positions, put into the text. -/
theorem Preserves.rendered {os : List Occurrence} {cursor stop : Int} {found : List Edit}
    (h : Preserves source os cursor stop found) (hcursor : 0 ≤ cursor) {rendered : List Char}
    (hrendered : render source cursor stop found none = .ok rendered) :
    rendered.count '\n' = (Position.piece source.text cursor stop).count '\n' ∧
      ∀ o ∈ os, o.kind = .reassignment → WrittenOut source os o rendered := by
  cases hrendered
  exact ⟨h.keepLines.count_splice hcursor, h.writtenOut⟩

section Reassignment

variable {source : Source} {steps : Nat} {outer o inner : Occurrence}
  {rest nested : List Occurrence} {operator : Int} {mark : Char} {target copy value : List Char}

/-- What begins behind the beginning of the first occurrence and ends before its end is among
those that the first one takes along. -/
theorem Ready.mem_nested (hready : Ready source (outer :: rest))
    (hnested : rest.takeWhile (fun inner => inner.offset < outer.stop) = nested)
    (hinner : inner ∈ outer :: rest) (hlt : outer.offset < inner.offset)
    (hle : inner.stop ≤ outer.stop) : inner ∈ nested := by
  have hpositive := (hready.fits inner hinner).2.placed.offset_lt
  have hfilter : rest.takeWhile (fun inner => inner.offset < outer.stop) =
      rest.filter fun inner => inner.offset < outer.stop :=
    OffsetLog.takeWhile_eq_filter (List.pairwise_cons.mp hready.sorted).2
  rw [← hnested, hfilter, List.mem_filter, decide_eq_true_eq]
  rcases List.mem_cons.mp hinner with rfl | hinner
  · omega
  · exact ⟨hinner, by omega⟩

/-- What lies inside an occurrence inside the outer one lies inside the outer one, on the same
side of its operator. -/
theorem Ready.mem_nested_of_within (hready : Ready source (outer :: rest))
    (hnested : rest.takeWhile (fun inner => inner.offset < outer.stop) = nested) (ho : o ∈ nested)
    (hinner : inner ∈ outer :: rest) (hin : inner.Within o) (operator : Int) :
    inner ∈ nested ∧ (o.stop ≤ operator → inner.stop ≤ operator) ∧
      (operator ≤ o.offset → operator < inner.stop) := by
  have houter := hready.laid.within_of_mem_takeWhile (hnested ▸ ho)
  have hpositive := (hready.fits inner hinner).2.placed.offset_lt
  have hlt := hin.offset_lt
  have hle := hin.stop_le
  refine ⟨hready.mem_nested hnested hinner (Int.lt_trans houter.offset_lt hlt)
    (Int.le_trans hle houter.stop_le), ?_, ?_⟩ <;> omega

/-- The target, the operator and the value of a compound assignment have all of its line feeds. -/
theorem count_reassignment (hmark : mark ≠ '\n') (hcopy : Unbroken copy) {offset stop : Int}
    (hoffset : 0 ≤ offset) (hlt : offset < operator) (hle : operator + 2 ≤ stop)
    (hsign : Position.piece source.text operator (operator + 2) = [mark, '='])
    (htarget : target.count '\n' = (Position.piece source.text offset operator).count '\n')
    (hvalue : value.count '\n' = (Position.piece source.text (operator + 2) stop).count '\n') :
    (target ++ '=' :: (copy ++ mark :: '(' :: (value ++ [')']))).count '\n' =
      (Position.piece source.text offset stop).count '\n' := by
  calc (target ++ '=' :: (copy ++ mark :: '(' :: (value ++ [')']))).count '\n'
      = target.count '\n' + value.count '\n' := by
        simp [List.count_append, hcopy.count_eq_zero, hmark]
    _ = (Position.piece source.text offset operator).count '\n' +
          ((Position.piece source.text operator (operator + 2)).count '\n' +
            (Position.piece source.text (operator + 2) stop).count '\n') := by
        rw [htarget, hvalue, hsign]
        simp [hmark]
    _ = (Position.piece source.text offset stop).count '\n' := by
        rw [← List.count_append, ← List.count_append,
          Position.piece_append (by omega) (by omega) hle,
          Position.piece_append hoffset (by omega) (by omega)]

/-- The compound assignment is written out, and so are those inside its target and its value. -/
theorem writtenOut_reassignment (hready : Ready source (outer :: rest))
    (hnested : rest.takeWhile (fun inner => inner.offset < outer.stop) = nested)
    (hsteps : rest.length ≤ steps) (hoperator : outer.operator = some operator)
    (hsides : ∀ inner ∈ nested, besideOperator operator inner = true)
    (htarget : renderWith source (edits source steps) outer.offset operator
      (nested.filter fun inner => inner.stop ≤ operator) none = .ok target)
    (hcopy : renderWith source (edits source steps) outer.offset operator
      (nested.filter fun inner => inner.stop ≤ operator) (some outer.layout) = .ok copy)
    (hunbroken : Unbroken copy)
    (hbefore : ∀ o ∈ nested.filter (fun inner => inner.stop ≤ operator), o.kind = .reassignment →
      WrittenOut source (nested.filter fun inner => inner.stop ≤ operator) o target)
    (hafter : ∀ o ∈ nested.filter (fun inner => operator < inner.stop), o.kind = .reassignment →
      WrittenOut source (nested.filter fun inner => operator < inner.stop) o value) :
    ∀ o ∈ outer :: nested, o.kind = .reassignment →
      WrittenOut source (outer :: rest) o
        (target ++ '=' :: (copy ++ mark :: '(' :: (value ++ [')']))) := by
  have hsublist : nested.Sublist rest := hnested ▸ List.takeWhile_sublist _
  have hpart : ∀ {keep : Occurrence → Bool}, nested.filter keep ⊆ outer :: rest :=
    fun h => List.mem_cons_of_mem _ (hsublist.mem (List.mem_of_mem_filter h))
  intro o ho hkind
  rcases List.mem_cons.mp ho with rfl | ho
  · refine ⟨operator, mark, _, steps, target, copy, value, [], [], hoperator, fun inner => ?_,
      (List.filter_sublist.trans hsublist).length_le.trans hsteps, htarget, hcopy, hunbroken,
      by simp⟩
    rw [List.mem_filter, decide_eq_true_eq]
    constructor
    · rintro ⟨hinner, hstop⟩
      exact ⟨List.mem_cons_of_mem _ (hsublist.mem hinner),
        hready.laid.within_of_mem_takeWhile (hnested ▸ hinner), hstop⟩
    · rintro ⟨hinner, hin, hstop⟩
      exact ⟨hready.mem_nested hnested hinner hin.offset_lt hin.stop_le, hstop⟩
  · have hside := hsides o ho
    have hpositive := (hready.fits o (List.mem_cons_of_mem _ (hsublist.mem ho))).2.placed.offset_lt
    simp only [besideOperator, Bool.or_eq_true, decide_eq_true_eq] at hside
    rcases hside with hstop | hstart
    · have hwritten := hbefore o (List.mem_filter.mpr ⟨ho, by simpa using hstop⟩) hkind
      refine hwritten.of_part hpart (fun inner hinner hin => ?_) [] _
      obtain ⟨hmem, hleft, -⟩ := hready.mem_nested_of_within hnested ho hinner hin operator
      exact List.mem_filter.mpr ⟨hmem, by simpa using hleft hstop⟩
    · have hwritten := hafter o (List.mem_filter.mpr ⟨ho, by simp; omega⟩) hkind
      have hwhole : WrittenOut source (outer :: rest) o
          ((target ++ '=' :: (copy ++ mark :: ['('])) ++ (value ++ [')'])) := by
        refine hwritten.of_part hpart (fun inner hinner hin => ?_) _ _
        obtain ⟨hmem, -, hright⟩ := hready.mem_nested_of_within hnested ho hinner hin operator
        exact List.mem_filter.mpr ⟨hmem, by simpa using hright (by omega)⟩
      simpa using hwhole

/-- The edit of a compound assignment keeps lines, when the edits of the occurrences inside
it do. -/
theorem preserves_reassignment {edit : Edit} (hready : Ready source (outer :: rest))
    (hsteps : rest.length ≤ steps) (hoffset : 0 ≤ outer.offset)
    (ih : ∀ part, part.Sublist rest → ∀ found, edits source steps part none = .ok found →
      ∀ cursor stop, 0 ≤ cursor → cursor ≤ stop →
        (∀ o ∈ part, cursor ≤ o.offset ∧ o.stop ≤ stop) → Preserves source part cursor stop found)
    (hedit : reassignmentEdit source (edits source steps) outer
      (rest.takeWhile fun inner => inner.offset < outer.stop) none = .ok edit) :
    edit.start = outer.offset ∧ edit.stop = outer.stop ∧
      edit.replacement.count '\n' =
        (Position.piece source.text outer.offset outer.stop).count '\n' ∧
      ∀ o ∈ outer :: rest.takeWhile (fun inner => inner.offset < outer.stop),
        o.kind = .reassignment → WrittenOut source (outer :: rest) o edit.replacement := by
  obtain ⟨operator, mark, target, copy, value, hoperator, hsides, htarget, hcopy, hvalue, rfl⟩ :=
    reassignmentEdit_eq hedit
  obtain ⟨houterOperator, hlt, hle, hmark, -⟩ := mark_of_findOperator hoperator
  have hfeed : mark ≠ '\n' := by
    rintro rfl
    cases not_isLineEnd_of_operators hmark
  have hlayout := (hready.fits outer List.mem_cons_self).2.layout_flat
  generalize hnested : rest.takeWhile (fun inner => inner.offset < outer.stop) = nested at *
  have hsublist : nested.Sublist rest := hnested ▸ List.takeWhile_sublist _
  have hwithin : ∀ inner ∈ nested, inner.Within outer :=
    fun inner hinner => hready.laid.within_of_mem_takeWhile (hnested ▸ hinner)
  obtain ⟨targetEdits, htargetEdits, htargetText⟩ := Except.bind_eq_ok htarget
  obtain ⟨copyEdits, hcopyEdits, hcopyText⟩ := Except.bind_eq_ok hcopy
  obtain ⟨valueEdits, hvalueEdits, hvalueText⟩ := Except.bind_eq_ok hvalue
  have hunbroken : Unbroken copy :=
    unbroken_render (unbroken_edits hlayout steps hcopyEdits) hlayout hcopyText
  have htargetLines := (ih _ (List.filter_sublist.trans hsublist) targetEdits htargetEdits
    outer.offset operator hoffset (by omega) fun o ho => by
      obtain ⟨ho, hbefore⟩ := List.mem_filter.mp ho
      exact ⟨Int.le_of_lt (hwithin o ho).offset_lt, by simpa using hbefore⟩).rendered hoffset
    htargetText
  have hvalueLines := (ih _ (List.filter_sublist.trans hsublist) valueEdits hvalueEdits
    (operator + 2) outer.stop (by omega) hle fun o ho => by
      obtain ⟨ho, hafter⟩ := List.mem_filter.mp ho
      have hside := hsides o ho
      simp only [besideOperator, Bool.or_eq_true, decide_eq_true_eq] at hside hafter
      exact ⟨by omega, (hwithin o ho).stop_le⟩).rendered (by omega) hvalueText
  exact ⟨rfl, rfl,
    count_reassignment hfeed hunbroken hoffset hlt hle (piece_of_findOperator hoffset hoperator)
      htargetLines.1 hvalueLines.1,
    writtenOut_reassignment hready hnested hsteps houterOperator hsides htarget hcopy hunbroken
      htargetLines.2 hvalueLines.2⟩

end Reassignment

/-- The edit of an occurrence keeps lines, when the edits of the occurrences inside it do. -/
theorem preserves_outer {steps : Nat} {outer : Occurrence} {rest : List Occurrence} {edit : Edit}
    (hready : Ready source (outer :: rest)) (hsteps : rest.length ≤ steps)
    (ih : ∀ part, part.Sublist rest → ∀ found, edits source steps part none = .ok found →
      ∀ cursor stop, 0 ≤ cursor → cursor ≤ stop →
        (∀ o ∈ part, cursor ≤ o.offset ∧ o.stop ≤ stop) → Preserves source part cursor stop found)
    (hedit : outer.kind = .notEqual ∧ edit = ⟨outer.offset, outer.offset + 2, ['~', '=']⟩ ∧
        source.piece outer.offset (outer.offset + 2) = ['!', '='] ∧
        rest.takeWhile (fun inner => inner.offset < outer.stop) = [] ∨
      outer.kind ≠ .notEqual ∧ reassignmentEdit source (edits source steps) outer
        (rest.takeWhile fun inner => inner.offset < outer.stop) none = .ok edit) :
    edit.start = outer.offset ∧ edit.stop = outer.stop ∧
      edit.replacement.count '\n' =
        (Position.piece source.text outer.offset outer.stop).count '\n' ∧
      ∀ o ∈ outer :: rest.takeWhile (fun inner => inner.offset < outer.stop),
        o.kind = .reassignment → WrittenOut source (outer :: rest) o edit.replacement := by
  have houter := (hready.fits outer List.mem_cons_self).2
  rcases hedit with ⟨hkind, rfl, hpiece, hnil⟩ | ⟨-, hassigned⟩
  · have hstop := houter.two_characters hkind
    rw [Source.piece] at hpiece
    refine ⟨rfl, hstop.symm, ?_, fun o ho hassignment => ?_⟩
    · rw [hstop, hpiece]
      rfl
    · rcases List.mem_cons.mp ho with rfl | ho
      · rw [hkind] at hassignment
        cases hassignment
      · rw [hnil] at ho
        cases ho
  · exact preserves_reassignment hready hsteps houter.placed.offset_nonneg ih hassigned

/-- Behind an occurrence are those that begin at its end or later. -/
theorem Ready.mem_later_iff {rest : List Occurrence} (hrest : Ready source rest)
    (outer o : Occurrence) :
    o ∈ rest.dropWhile (fun inner => inner.offset < outer.stop) ↔
      o ∈ rest ∧ outer.stop ≤ o.offset := by
  have hdropped : rest.dropWhile (fun inner => inner.offset < outer.stop) =
      rest.filter fun inner => outer.stop ≤ inner.offset :=
    OffsetLog.dropWhile_eq_filter hrest.sorted
  rw [hdropped, List.mem_filter, decide_eq_true_eq]

/-- What is written out behind an occurrence is written out in the whole. -/
theorem writtenOut_later {outer o : Occurrence} {rest : List Occurrence} {others : List Edit}
    {stop : Int} (hrest : Ready source rest) (hpositive : outer.offset < outer.stop)
    (hlater : Preserves source (rest.dropWhile fun inner => inner.offset < outer.stop) outer.stop
      stop others)
    (ho : o ∈ rest.dropWhile fun inner => inner.offset < outer.stop)
    (hkind : o.kind = .reassignment)
    (before : List Char) :
    WrittenOut source (outer :: rest) o
      (before ++ Edit.splice source.text Edit.keep stop outer.stop others) := by
  have hpart : WrittenOut source (outer :: rest) o
      (before ++ (Edit.splice source.text Edit.keep stop outer.stop others ++ [])) := by
    refine (hlater.writtenOut o ho hkind).of_part (fun inner hinner => ?_)
      (fun inner hinner hin => ?_) before []
    · exact List.mem_cons_of_mem _ ((hrest.mem_later_iff outer inner).mp hinner).1
    · have hlt := hin.offset_lt
      have hbegin := ((hrest.mem_later_iff outer o).mp ho).2
      rcases List.mem_cons.mp hinner with rfl | hinner
      · omega
      · exact (hrest.mem_later_iff outer inner).mpr ⟨hinner, by omega⟩
  rwa [List.append_nil] at hpart

/-- Edits of occurrences keep lines and write the compound assignments out.  The induction
is on the number of occurrences. -/
theorem preserves_edits (steps : Nat) {os : List Occurrence} (hsteps : os.length ≤ steps)
    (hready : Ready source os) {found : List Edit} (h : edits source steps os none = .ok found)
    {cursor stop : Int} (hcursor : 0 ≤ cursor) (hle : cursor ≤ stop)
    (hrange : ∀ o ∈ os, cursor ≤ o.offset ∧ o.stop ≤ stop) :
    Preserves source os cursor stop found := by
  induction steps generalizing os found cursor stop with
  | zero =>
      cases h
      obtain rfl := List.length_eq_zero_iff.mp (Nat.le_zero.mp hsteps)
      exact ⟨hle, fun _ h => absurd h List.not_mem_nil, fun _ h => absurd h List.not_mem_nil⟩
  | succ steps ih =>
      cases os with
      | nil =>
          cases h
          exact ⟨hle, fun _ h => absurd h List.not_mem_nil, fun _ h => absurd h List.not_mem_nil⟩
      | cons outer rest =>
          obtain ⟨edit, others, rfl, -, hothers, hedit⟩ := edits_cons_eq h
          obtain ⟨hsugar, houter⟩ := hready.fits outer List.mem_cons_self
          have hoffset := houter.placed.offset_nonneg
          have hpositive := houter.placed.offset_lt
          have hrest : Ready source rest := hready.sublist (List.sublist_cons_self outer rest)
          have hlength : rest.length ≤ steps := Nat.le_of_succ_le_succ hsteps
          have hnested : ∀ part, part.Sublist rest → ∀ found,
              edits source steps part none = .ok found → ∀ cursor stop, 0 ≤ cursor → cursor ≤ stop →
                (∀ o ∈ part, cursor ≤ o.offset ∧ o.stop ≤ stop) →
                  Preserves source part cursor stop found :=
            fun part hpart found hfound cursor stop hcursor hle hrange =>
              ih (Nat.le_trans hpart.length_le hlength) (hrest.sublist hpart) hfound hcursor hle
                hrange
          have hlater := hnested _ (List.dropWhile_sublist _) others hothers outer.stop stop
            (by omega) (hrange outer List.mem_cons_self).2 fun o ho => by
              obtain ⟨ho, hbegin⟩ := (hrest.mem_later_iff outer o).mp ho
              exact ⟨hbegin, (hrange o (List.mem_cons_of_mem _ ho)).2⟩
          obtain ⟨hstart, hstop, hlines, hwritten⟩ :=
            preserves_outer hready hlength hnested hedit
          constructor
          · refine ⟨?_, ?_, ?_, ?_⟩
            · rw [hstart]
              exact (hrange outer List.mem_cons_self).1
            · omega
            · rw [hlines, hstart, hstop]
            · rw [hstop]
              exact hlater.keepLines
          · intro other hother
            rcases List.mem_cons.mp hother with rfl | hother
            · exact ⟨outer, List.mem_cons_self, hstart, hstop⟩
            · obtain ⟨o, ho, hcovers⟩ := hlater.covers other hother
              exact ⟨o, List.mem_cons_of_mem _ ((hrest.mem_later_iff outer o).mp ho).1, hcovers⟩
          · intro o ho hkind
            rw [Edit.splice_cons, hstop]
            rw [← List.takeWhile_append_dropWhile (p := fun inner : Occurrence =>
              decide (inner.offset < outer.stop)) (l := rest), ← List.cons_append] at ho
            rcases List.mem_append.mp ho with hinside | hbehind
            · exact (hwritten o hinside hkind).of_part (fun _ h => h) (fun _ h _ => h) _ _
            · rw [← List.append_assoc]
              exact writtenOut_later hrest hpositive hlater hbehind hkind _

end Desugar

/-! ## Line numbers -/

/-- The line that holds an offset is found by counting the line feeds before it. -/
theorem Source.lineHolding_scan (offset number : Nat) (current place : LineStart)
    (cs : List Char) :
    (lineHolding offset number current (place.scan cs)).1 =
      number + (cs.take (offset - place.offset)).count '\n' := by
  induction cs generalizing number current place with
  | nil => simp [LineStart.scan, lineHolding]
  | cons c cs ih =>
      rw [LineStart.scan]
      generalize hnext : (⟨place.offset + 1, place.byteOffset + c.utf8Size⟩ : LineStart) = next
      have hoffset : next.offset = place.offset + 1 := by rw [← hnext]
      have htake : next.offset ≤ offset →
          (c :: cs).take (offset - place.offset) = c :: cs.take (offset - next.offset) := by
        intro hle
        rw [show offset - place.offset = offset - next.offset + 1 by omega, List.take_succ_cons]
      have hnone : ¬next.offset ≤ offset → (c :: cs).take (offset - place.offset) = [] := by
        intro hlt
        rw [show offset - place.offset = 0 by omega, List.take_zero]
      by_cases hc : c = '\n'
      · rw [if_pos hc, lineHolding]
        by_cases hle : next.offset ≤ offset
        · rw [if_pos hle, ih, htake hle, hc, List.count_cons_self]
          omega
        · rw [if_neg hle, hnone hle]
          rfl
      · rw [if_neg hc, ih]
        by_cases hle : next.offset ≤ offset
        · rw [htake hle, List.count_cons_of_ne hc]
        · rw [hnone hle, show offset - next.offset = 0 by omega, List.take_zero]

/-- The number of the line of an offset in the text. -/
theorem Source.line_eq (source : Source) {offset : Nat} (hoffset : offset ≤ source.length) :
    (source.lineAndColumn offset).1 = 1 + (source.chars.take offset).count '\n' := by
  have hclamp : source.clamp offset = offset := Nat.min_eq_left hoffset
  simp only [lineAndColumn, hclamp, lineOf, source.laterLines_eq]
  exact lineHolding_scan offset 1 LineStart.first LineStart.first source.text.toList

namespace Dialect

mutual

/-- A comparison is recorded with both of its characters. -/
theorem tokenEnd_of_notEqual {w : Walk} (hw : w.Plain) : (t : Tree) → Tree.Derived [t] →
    ∀ c ∈ w.occurrences [t], c.rule = OccurrenceKind.notEqual.name → c.tokenEnd = c.start + 2
  | .chars _, _, c, hc, _ => absurd hc List.not_mem_nil
  | .node rule parts, hderived, c, hc, hname => by
      obtain ⟨hrule, s, rest, hmatch⟩ := hderived.node
      by_cases hpadded : paddingRules.contains rule.name = true
      · rw [occurrences_of_padding hw.anchored hderived hpadded] at hc
        cases hc
      have hplain : (rule.padding || rule.quiet) = false :=
        Bool.eq_false_iff.mpr fun h => hpadded (padding_of_mem hrule h)
      obtain ⟨hpadding, hquiet⟩ := Bool.or_eq_false_iff.mp hplain
      rw [Walk.occurrences_node hw.quiet, List.mem_append] at hc
      rcases hc with hc | hc
      · exact tokenEnd_of_notEqualOfAll (hw.enter hpadding hquiet) parts hderived.inner c hc hname
      · obtain rfl := List.mem_singleton.mp (List.mem_filter.mp hc).1
        obtain rfl : rule = operatorNotEqual :=
          eq_of_name_eq hrule (by simp [rules, tierRules, extension]) hname
        rw [of_operatorNotEqual hmatch]
        have hoffset : (w.pass (.node operatorNotEqual [.chars ['!', '=']])).offset =
            w.offset + 2 := rfl
        have htokenEnd : (w.pass (.node operatorNotEqual [.chars ['!', '=']])).tokenEnd =
            w.offset + 2 := by
          simp [Walk.pass, Walk.passAll, Walk.advance, Walk.enter, Walk.leave, operatorNotEqual,
            hw.padding]
        have hanchored : operatorNotEqual.anchored = false := rfl
        simp only [Walk.capture, Capture.ofSpan, hoffset, htokenEnd, hanchored, Bool.false_eq_true,
          if_false]
        omega

theorem tokenEnd_of_notEqualOfAll {w : Walk} (hw : w.Plain) : (parts : List Tree) →
    Tree.Derived parts → ∀ c ∈ w.occurrences parts, c.rule = OccurrenceKind.notEqual.name →
      c.tokenEnd = c.start + 2
  | [], _, c, hc, _ => absurd hc List.not_mem_nil
  | part :: parts, hderived, c, hc, hname => by
      rw [Walk.occurrences_cons, List.mem_append] at hc
      rcases hc with hc | hc
      · exact tokenEnd_of_notEqual hw part hderived.head c hc hname
      · exact tokenEnd_of_notEqualOfAll (hw.pass part) parts hderived.tail c hc hname

end

/-- The records of an accepted text can be written on one line. -/
theorem fitsOnLine_of_mem_occurrences {source : Source} {tree : Tree}
    (h : Derives pico8.grammar (.rule rootName) source.chars (.matched [tree] []))
    {recorder : Recorder} (hconfirms : recorder.Confirms source tree)
    {kinds : List OccurrenceKind} {o : Occurrence} (ho : o ∈ recorder.occurrences kinds) :
    o.FitsOnLine source := by
  refine ⟨fits_of_mem_occurrences h.toMatch hconfirms ho, ?_, ?_⟩
  all_goals obtain ⟨c, hc, hname, heq⟩ := capture_of_mem_occurrences hconfirms ho
  · intro hkind
    rw [hkind] at hname heq
    rw [heq, stop_occurrence]
    exact tokenEnd_of_notEqualOfAll plain_initial [tree] h.toMatch.derived c hc hname
  · intro lexeme hlexeme
    rw [heq] at hlexeme
    simp only [Recorder.occurrence] at hlexeme
    split at hlexeme
    · apply flattensOnLine_of_mem_captures h
      apply hconfirms.lexemes_perm.mem_iff.mp
      exact ((List.takeWhile_sublist _).trans (List.dropWhile_sublist _)).mem hlexeme
    · cases hlexeme

/-- What is recorded of an accepted text is ready to become edits. -/
theorem ready_of_record {limit : Int} {source : Source} {parsed : Parsed}
    (h : ((pico8.parser limit).record source).1 = .ok parsed) {kinds : List OccurrenceKind}
    (hkinds : kinds.Nodup) :
    Ready source (Occurrence.sort
      ((((pico8.parser limit).record source).2.occurrences kinds).filter isSugar)) := by
  obtain ⟨hfits, hlaminar⟩ := fits_of_record h hkinds
  obtain ⟨tree, htree, hagrees⟩ := derives_of_record h
  have hconfirms := confirms_of_agrees htree.toMatch hagrees
  constructor
  · intro o ho
    obtain ⟨ho, hsugar⟩ := List.mem_filter.mp (mem_sortBy.mp ho)
    exact ⟨hsugar, fitsOnLine_of_mem_occurrences htree hconfirms ho⟩
  · apply Occurrence.Laminar.laid_sort (List.Pairwise.sublist List.filter_sublist hlaminar)
    intro o ho
    exact (hfits o (List.mem_filter.mp ho).1).placed.offset_lt
  · apply (pairwise_sortBy Occurrence.precedes_trans Occurrence.precedes_total _).imp
    intro a b hab
    exact Occurrence.offset_le_of_precedes hab

end Dialect

/-! ## The whole text -/

/-- Whether an offset lies outside all of some occurrences. -/
def Occurrence.Untouched (os : List Occurrence) (i : Nat) : Prop :=
  ∀ o ∈ os, (i : Int) < o.offset ∨ o.stop ≤ i

/-- Whether an output keeps the lines of a source of which some occurrences are rewritten:
what lies outside them is there in the same order, on the same lines. -/
structure Source.KeepsLines (source : Source) (os : List Occurrence) (output : List Char) :
    Prop where
  lineFeeds : output.count '\n' = source.chars.count '\n'
  kept : ∃ place : Nat → Nat, ∀ i, (hi : i < source.text.size) → Occurrence.Untouched os i →
    output[place i]? = some source.text[i] ∧
      ((source.replaced output).lineAndColumn (place i)).1 = (source.lineAndColumn i).1 ∧
      ∀ j, j < i → Occurrence.Untouched os j → place j < place i
  writtenOut : ∀ o ∈ os, o.kind = .reassignment → Desugar.WrittenOut source os o output

/-- Which occurrences are rewritten matters, not their order. -/
theorem Source.KeepsLines.congr {source : Source} {os others : List Occurrence}
    {output : List Char} (h : source.KeepsLines os output) (hmem : ∀ o, o ∈ os ↔ o ∈ others) :
    source.KeepsLines others output := by
  have huntouched : ∀ {i : Nat}, Occurrence.Untouched others i → Occurrence.Untouched os i :=
    fun hi o ho => hi o ((hmem o).mp ho)
  obtain ⟨place, hplace⟩ := h.kept
  refine ⟨h.lineFeeds, ⟨place, fun i hi hout => ?_⟩, fun o ho hkind => ?_⟩
  · obtain ⟨hkept, hline, horder⟩ := hplace i hi (huntouched hout)
    exact ⟨hkept, hline, fun j hj hbefore => horder j hj (huntouched hbefore)⟩
  · have hwritten := (h.writtenOut o ((hmem o).mpr ho) hkind).of_part
      (fun inner hinner => (hmem inner).mp hinner) (fun inner hinner _ => (hmem inner).mpr hinner)
      [] []
    simpa using hwritten

/-- Edits that keep lines, put into a whole text. -/
theorem Desugar.Preserves.keepsLines {source : Source} {os : List Occurrence} {found : List Edit}
    (h : Preserves source os 0 source.text.size found) :
    source.KeepsLines os (Edit.applyAll source.text found) := by
  have hlines := h.keepLines
  have houtside : ∀ {i : Nat}, Occurrence.Untouched os i → Edit.Outside found i := by
    intro i hi edit hedit
    obtain ⟨o, ho, hstart, hstop⟩ := h.covers edit hedit
    rw [hstart, hstop]
    exact hi o ho
  refine ⟨?_, ⟨Edit.place source.text 0 found, fun i hi huntouched => ⟨?_, ?_, ?_⟩⟩, h.writtenOut⟩
  · rw [Edit.applyAll, hlines.count_splice (Int.le_refl 0), Position.piece_zero_size]
    rfl
  all_goals
    obtain ⟨before, after, hsplit, hlength, hcount⟩ := hlines.splice_place (Int.le_refl 0)
      (Int.natCast_nonneg i) (by omega) hi (houtside huntouched)
    rw [Position.piece_zero] at hcount
  · rw [Edit.applyAll, hsplit, ← hlength, List.getElem?_append_right (Nat.le_refl _), Nat.sub_self]
    rfl
  · have hplace : Edit.place source.text 0 found i ≤
        (source.replaced (Edit.applyAll source.text found)).length := by
      rw [Source.replaced, Source.length_ofChars, Edit.applyAll, hsplit, List.length_append]
      omega
    rw [Source.line_eq _ hplace, Source.line_eq source (Nat.le_of_lt hi), Source.replaced,
      Source.chars_ofChars, Edit.applyAll, hsplit, ← hlength, List.take_left, hcount]
    rfl
  · intro j hj hbefore
    exact hlines.place_lt (Int.le_refl 0) (Int.natCast_nonneg j) hj (Nat.le_of_lt hi)
      (houtside hbefore) (houtside huntouched)

/-- Rewriting an accepted text keeps its lines, and every compound assignment has its second
copy of the target on one line. -/
theorem rewriting_keeps_lines {limit : Int} {source : Source} {parsed : Parsed}
    (h : ((Dialect.pico8.parser limit).record source).1 = .ok parsed)
    {kinds : List OccurrenceKind} (hkinds : kinds.Nodup) :
    ∃ edits,
      Desugar.plan source (((Dialect.pico8.parser limit).record source).2.occurrences kinds) =
        .ok edits ∧
      source.KeepsLines
        ((((Dialect.pico8.parser limit).record source).2.occurrences kinds).filter Desugar.isSugar)
        (Edit.applyAll source.text edits) := by
  obtain ⟨edits, hplan⟩ := Dialect.plan_of_record h hkinds
  have hready := Dialect.ready_of_record h hkinds
  obtain ⟨-, -, hedits⟩ := Except.bind_eq_ok hplan
  generalize (((Dialect.pico8.parser limit).record source).2.occurrences kinds).filter
    Desugar.isSugar = sugar at hedits hready ⊢
  have hpreserves : Desugar.Preserves source (Occurrence.sort sugar) 0 source.text.size edits := by
    apply Desugar.preserves_edits sugar.length _ hready hedits (Int.le_refl 0)
      (Int.natCast_nonneg _)
    · intro o ho
      have hplaced := (hready.fits o ho).2.placed
      exact ⟨hplaced.offset_nonneg, hplaced.stop_le⟩
    · exact Nat.le_of_eq (length_sortBy _ _)
  exact ⟨edits, hplan, hpreserves.keepsLines.congr fun o => mem_sortBy⟩

/-- A target with a long string and a comment over lines has its second copy on one line. -/
theorem rewriting_keeps_lines_reassignment :
    ∃ edits,
      Desugar.plan (.ofString "a[ [[x\ny]] --[[\n]] ]+=b!=c" "cart")
        (((Dialect.pico8.parser 0).record
          (.ofString "a[ [[x\ny]] --[[\n]] ]+=b!=c" "cart")).2.occurrences []) = .ok edits ∧
      (Source.ofString "a[ [[x\ny]] --[[\n]] ]+=b!=c" "cart").KeepsLines
        ((((Dialect.pico8.parser 0).record
          (.ofString "a[ [[x\ny]] --[[\n]] ]+=b!=c" "cart")).2.occurrences []).filter
            Desugar.isSugar)
        (Edit.applyAll (Source.ofString "a[ [[x\ny]] --[[\n]] ]+=b!=c" "cart").text edits) := by
  obtain ⟨parsed, hparsed⟩ : ∃ parsed, ((Dialect.pico8.parser 0).record
      (.ofString "a[ [[x\ny]] --[[\n]] ]+=b!=c" "cart")).1 = .ok parsed := by
    rw [Dialect.exists_record_eq_ok_iff, Dialect.recording_eq]
    decide +kernel
  exact rewriting_keeps_lines hparsed List.nodup_nil

end CartLua
