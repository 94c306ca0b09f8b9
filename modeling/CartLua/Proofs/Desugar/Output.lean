import CartLua.Proofs.Desugar.Rendering

/-!
# The items of an output

What is recorded of an accepted text, in the order in which it is desugared, is what the items of
the text are desugared by.  So the output is the items of the text, with those of its extensions
written anew.
-/

namespace CartLua

open Dialect

namespace Desugars

variable {log : List Lexeme} {offset : Nat} {items : List Item} {os : List Occurrence}
  {ws : List Written}

/-- Occurrences are met in the order in which they are desugared. -/
theorem pairwise_precedes (h : Desugars log offset items os ws) :
    os.Pairwise fun a b => Occurrence.precedes a b = true := by
  have hprecedes :
      ∀ {a b : Occurrence}, a.offset ≤ b.offset → b.stop ≤ a.stop ∨ a.offset < b.offset →
      Occurrence.precedes a b = true := by
    intro a b hle hor
    simp only [Occurrence.precedes, Occurrence.stop, Bool.or_eq_true, Bool.and_eq_true, beq_iff_eq,
      decide_eq_true_eq] at hor ⊢
    omega
  induction h with
  | nil _ => exact .nil
  | keep _ _ ih => exact ih
  | comparison _ offset_eq _ others ih =>
      refine List.pairwise_cons.mpr ⟨fun other hother => ?_, ih⟩
      have hbounds := others.bounds other hother
      exact hprecedes (by omega) (.inr (by omega))
  | assignment _ offset_eq _ stop_eq _ _ _ _ _ inner right others ihinner ihright ihothers =>
      refine List.pairwise_cons.mpr ⟨fun other hother => ?_, ?_⟩
      · simp only [List.mem_append] at hother
        rcases hother with hother | hother | hother
        · have hbounds := inner.bounds other hother
          exact hprecedes (by omega) (.inl (by omega))
        · have hbounds := right.bounds other hother
          exact hprecedes (by omega) (.inr (by omega))
        · have hbounds := others.bounds other hother
          exact hprecedes (by omega) (.inr (by omega))
      · refine List.pairwise_append.mpr ⟨ihinner, List.pairwise_append.mpr ⟨ihright, ihothers, ?_⟩,
          ?_⟩
        · intro a ha b hb
          have hfirst := right.bounds a ha
          have hsecond := others.bounds b hb
          exact hprecedes (by omega) (.inr (by omega))
        · intro a ha b hb
          have hfirst := inner.bounds a ha
          rcases List.mem_append.mp hb with hb | hb
          · have hsecond := right.bounds b hb
            exact hprecedes (by omega) (.inr (by omega))
          · have hsecond := others.bounds b hb
            exact hprecedes (by omega) (.inr (by omega))

/-- Only comparisons and compound assignments are met. -/
theorem isSugar (h : Desugars log offset items os ws) : ∀ o ∈ os, Desugar.isSugar o = true := by
  induction h with
  | nil _ => exact nofun
  | keep _ _ ih => exact ih
  | comparison kind _ _ _ ih =>
      exact List.forall_mem_cons.mpr ⟨by rw [Desugar.isSugar, kind]; rfl, ih⟩
  | assignment kind _ _ _ _ _ _ _ _ _ _ _ ihinner ihright ihothers =>
      refine List.forall_mem_cons.mpr ⟨by rw [Desugar.isSugar, kind]; rfl, ?_⟩
      exact List.forall_mem_append.mpr ⟨ihinner, List.forall_mem_append.mpr ⟨ihright, ihothers⟩⟩

end Desugars

namespace Occurrence

/-- Occurrences that are apart or nested have one order. -/
theorem Laminar.sort_eq {os sorted : List Occurrence} (h : Laminar os)
    (hos : ∀ o ∈ os, o.offset < o.stop) (hperm : sorted.Perm os)
    (hsorted : sorted.Pairwise fun a b => precedes a b = true) : sort os = sorted := by
  have hsymm : Std.Symm Separate := ⟨fun _ _ => Separate.symm⟩
  refine List.Perm.eq_of_pairwise (fun a b ha hb hab hba => ?_)
    (pairwise_sortBy precedes_trans precedes_total os) hsorted ((sortBy_perm _ os).trans hperm.symm)
  -- Two that come before each other have one span, so they are one occurrence.
  refine Decidable.byContradiction fun hne => ?_
  have ha := mem_sortBy.mp ha
  have hb := hperm.subset hb
  have hseparate := h.forall ha hb hne
  have haLength := hos a ha
  simp only [precedes, Bool.or_eq_true, Bool.and_eq_true, beq_iff_eq, decide_eq_true_eq] at hab hba
  rcases hseparate with hbefore | hafter | hinside | hinside
  · omega
  · have hbLength := hos b hb
    omega
  · have hlt := hinside.offset_lt
    omega
  · have hlt := hinside.offset_lt
    omega

end Occurrence

namespace Dialect

variable {source : Source} {recorder : Recorder} {tree : Tree}

/-- What is desugared of some captures are the comparisons and the compound assignments. -/
theorem filterMap_sugar?_perm (recorder : Recorder) (source : Source) (cs : List Capture) :
    (cs.filterMap (recorder.sugar? source)).Perm
      (((cs.filter fun c => c.rule == OccurrenceKind.notEqual.name).map
          (recorder.occurrence source .notEqual)) ++
        ((cs.filter fun c => c.rule == OccurrenceKind.reassignment.name).map
          (recorder.occurrence source .reassignment))) := by
  induction cs with
  | nil => exact .nil
  | cons c cs ih =>
      by_cases hnotEqual : c.rule = OccurrenceKind.notEqual.name
      · have hsugar : recorder.sugar? source c = some (recorder.occurrence source .notEqual c) := by
          rw [Recorder.sugar?, hnotEqual, OccurrenceKind.ofName?_name]
        rw [List.filterMap_cons_some hsugar, List.filter_cons_of_pos (by simp [hnotEqual]),
          List.filter_cons_of_neg (by rw [hnotEqual]; decide)]
        exact ih.cons _
      · by_cases hassign : c.rule = OccurrenceKind.reassignment.name
        · have hsugar :
              recorder.sugar? source c = some (recorder.occurrence source .reassignment c) := by
            rw [Recorder.sugar?, hassign, OccurrenceKind.ofName?_name]
          rw [List.filterMap_cons_some hsugar, List.filter_cons_of_neg (by simpa using hnotEqual),
            List.filter_cons_of_pos (by simp [hassign])]
          exact (ih.cons _).trans List.perm_middle.symm
        · have hsugar : recorder.sugar? source c = none := by
            rw [Recorder.sugar?]
            cases hkind : OccurrenceKind.ofName? c.rule with
            | none => rfl
            | some kind =>
                have hname := Recorder.ofName?_eq_some.mp hkind
                cases kind with
                | notEqual => exact absurd hname hnotEqual
                | reassignment => exact absurd hname hassign
                | shortIf => rfl
          rw [List.filterMap_cons_none hsugar, List.filter_cons_of_neg (by simpa using hnotEqual),
            List.filter_cons_of_neg (by simpa using hassign)]
          exact ih

/-- Those recorded of an accepted text are those of its derivation. -/
theorem occurrences_perm (hconfirms : recorder.Confirms source tree) :
    (recorder.occurrences [.notEqual, .reassignment]).Perm
      ((Walk.initial.captures tree).filterMap (recorder.sugar? source)) := by
  refine (sortBy_perm _ _).trans (.trans ?_ (filterMap_sugar?_perm recorder source _).symm)
  simp only [List.isEmpty_cons, Bool.false_eq_true, if_false, List.flatMap_cons, List.flatMap_nil,
    List.append_nil]
  exact (hconfirms.occurrences_perm .notEqual).append (hconfirms.occurrences_perm .reassignment)

/-- The lexemes of an accepted text can be brought onto one line. -/
theorem flattens_of_mem_lexemes (h : Match pico8.grammar (.rule rootName) source.chars [tree] [])
    (hconfirms : recorder.Confirms source tree) {lexeme : Lexeme}
    (hlexeme : lexeme ∈ recorder.lexemes.toList) : lexeme.Flattens source :=
  flattens_of_mem_captures h (hconfirms.lexemes_perm.mem_iff.mp hlexeme)

/-- The items of an accepted text stand in it, with their comments and strings in the log. -/
theorem row_of_whole (h : Derives pico8.grammar (.rule rootName) source.chars (.matched [tree] []))
    (hconfirms : recorder.Confirms source tree) :
    Item.Row source recorder.lexemes.toList 0 (tree.items .symbol) := by
  have hitems : ∀ item ∈ tree.items .symbol, item.text ≠ [] := by
    simpa [Tree.itemsOfAll] using text_ne_nil_of_mem_items rfl h .symbol
  have hlexemes := toList_lexemes h hconfirms
  have hbounds := @Item.bounds_of_mem_lexemes 0 _ hitems
  rw [← hlexemes] at hbounds
  constructor
  · refine ⟨[], [], ?_, rfl⟩
    have htext := h.toMatch.text_eq
    rw [Tree.textOf_items]
    simpa [Tree.textOfAll] using htext
  · exact hitems
  · exact fun lexeme hlexeme => (hbounds lexeme hlexeme).2.1
  · rw [← hlexemes, List.filter_eq_self]
    intro lexeme hlexeme
    have hlexeme := hbounds lexeme hlexeme
    simp only [Bool.and_eq_true, decide_eq_true_eq]
    omega
  · rw [← hlexemes]
    exact fun lexeme => flattens_of_mem_lexemes h.toMatch hconfirms

/-- What is recorded of an accepted text desugars its items, and the output is what is written for
them. -/
theorem output_of_record {limit : Int} {source : Source} {parsed : Parsed}
    (hparsed : ((pico8.parser limit).record source).1 = .ok parsed) :
    ∃ tree ws found, Derives pico8.grammar (.rule rootName) source.chars (.matched [tree] []) ∧
      Item.Row source ((pico8.parser limit).record source).2.lexemes.toList 0 (tree.items .symbol) ∧
      Desugars ((pico8.parser limit).record source).2.lexemes.toList 0 (tree.items .symbol)
        (((pico8.parser limit).record source).2.occurrences [.notEqual, .reassignment]) ws ∧
      Desugar.plan source
        (((pico8.parser limit).record source).2.occurrences [.notEqual, .reassignment]) =
          .ok found ∧
      Edit.applyAll source.text found = Written.textOf ws := by
  obtain ⟨tree, htree, hagrees⟩ := derives_of_record hparsed
  obtain ⟨hfits, hlaminar⟩ :=
    fits_of_record hparsed (by decide : [OccurrenceKind.notEqual, .reassignment].Nodup)
  have hconfirms := confirms_of_agrees htree.toMatch hagrees
  have hordered : ((pico8.parser limit).record source).2.lexemes.Ordered :=
    ((Recorder.ordered_empty.seeAll source _).of_agrees hagrees).lexemes
  generalize ((pico8.parser limit).record source).2 = recorder
    at hfits hlaminar hconfirms hordered ⊢
  obtain ⟨os, ws, hos, hperm⟩ := desugars_of_whole htree.toMatch hordered
  have hrow := row_of_whole htree hconfirms
  have hsort : Occurrence.sort (recorder.occurrences [.notEqual, .reassignment]) = os :=
    hlaminar.sort_eq (fun o ho => (hfits o ho).placed.offset_lt)
      (hperm.trans (occurrences_perm hconfirms).symm) hos.pairwise_precedes
  have hself : Occurrence.sort (recorder.occurrences [.notEqual, .reassignment]) =
      recorder.occurrences [.notEqual, .reassignment] :=
    sortBy_eq_self (pairwise_sortBy Occurrence.precedes_trans Occurrence.precedes_total _)
  obtain rfl : recorder.occurrences [.notEqual, .reassignment] = os := hself.symm.trans hsort
  obtain ⟨found, hfound, hreplaces⟩ :=
    @Desugars.edits source _ _ _ _ _ _ none hos hrow (Nat.le_refl _) nofun
  refine ⟨tree, ws, found, htree, hrow, hos, ?_, ?_⟩
  · rw [Desugar.plan, List.filter_eq_self.mpr hos.isSugar,
      Desugar.forM_checkPosition_eq_ok fun o ho => (hfits o ho).placed, Desugar.ok_bind, hsort]
    exact hfound
  · have htext := htree.toMatch.text_eq
    have hsize : source.text.size = 0 + Item.width (tree.items .symbol) := by
      rw [Nat.zero_add, Item.width, Tree.textOf_items, ← Array.length_toList]
      change source.chars.length = _
      rw [htext]
      simp [Tree.textOfAll]
    rw [Edit.applyAll, hsize]
    exact hreplaces.splice_keep hrow.stands

end Dialect

end CartLua
