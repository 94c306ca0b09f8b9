import Mathlib.Data.List.Pairwise
import CartLua.Proofs.Desugar.LinePreservation
import CartLua.Proofs.Items.Occurrences

/-!
# Rendering items

The edits of a plan each replace a row of items by what is written for them, and all other items
stay.  Put into the text they give what is written for all items.  On one line it is the same, with
every item flattened.
-/

namespace CartLua

open Dialect

namespace Edit

variable {text : Array Char} {gap : List Char → List Char} {stop cursor mid : Int}

/-- Edits that all begin behind a place leave what comes before it. -/
theorem splice_advance (hgap : ∀ as bs, gap (as ++ bs) = gap as ++ gap bs) {edits : List Edit}
    (hcursor : 0 ≤ cursor) (hmid : cursor ≤ mid) (hstop : mid ≤ stop)
    (hedits : ∀ edit ∈ edits, mid ≤ edit.start) :
    splice text gap stop cursor edits =
      gap (Position.piece text cursor mid) ++ splice text gap stop mid edits := by
  cases edits with
  | nil => rw [splice_nil, splice_nil, ← hgap, Position.piece_append hcursor hmid hstop]
  | cons edit edits =>
      have hpiece := @Position.piece_append text _ _ _ hcursor hmid (hedits edit List.mem_cons_self)
      rw [splice_cons, splice_cons, ← hpiece, hgap, List.append_assoc]

end Edit

namespace Written

/-- How items are written, perhaps on one line. -/
def render (flat : Bool) (ws : List Written) : List Char :=
  textOf (if flat then ws.map flatten else ws)

@[simp]
theorem render_append (flat : Bool) (as bs : List Written) :
    render flat (as ++ bs) = render flat as ++ render flat bs := by
  cases flat <;> simp [render]

end Written

/-- Whether edits replace rows of items from an offset on by what is written for them.  The items
between the rows stay. -/
inductive Replaces (flat : Bool) :
    (offset : Nat) → List Item → List Edit → List Written → Prop
  | nil (offset : Nat) : Replaces flat offset [] [] []
  | keep {offset : Nat} {item : Item} {items : List Item} {edits : List Edit} {ws : List Written}
      (others : Replaces flat (offset + item.text.length) items edits ws) :
      Replaces flat offset (item :: items) edits (⟨item, false⟩ :: ws)
  | edit {offset : Nat} {row items : List Item} {edits : List Edit} {vs ws : List Written}
      (row_pos : 0 < Item.width row)
      (others : Replaces flat (offset + Item.width row) items edits ws) :
      Replaces flat offset (row ++ items)
        (⟨offset, (offset + Item.width row : Nat), Written.render flat vs⟩ :: edits) (vs ++ ws)

/-- Whether items stand in a text at an offset. -/
def Item.Stands (source : Source) (offset : Nat) (items : List Item) : Prop :=
  ∃ before after, source.chars = before ++ (Item.textOf items ++ after) ∧ before.length = offset

namespace Item.Stands

variable {source : Source} {offset : Nat} {as bs : List Item}

theorem left (h : Stands source offset (as ++ bs)) : Stands source offset as := by
  obtain ⟨before, after, htext, hlength⟩ := h
  exact ⟨before, Item.textOf bs ++ after, by simpa using htext, hlength⟩

theorem right (h : Stands source offset (as ++ bs)) :
    Stands source (offset + Item.width as) bs := by
  obtain ⟨before, after, htext, hlength⟩ := h
  exact ⟨before ++ Item.textOf as, after, by simpa using htext, by simp [hlength, Item.width]⟩

theorem tail {item : Item} (h : Stands source offset (item :: as)) :
    Stands source (offset + item.text.length) as := by
  have hright : Stands source (offset + Item.width [item]) as := h.right
  simpa using hright

theorem piece_eq (h : Stands source offset as) :
    source.piece offset (offset + Item.width as : Nat) = Item.textOf as := by
  obtain ⟨before, after, htext, rfl⟩ := h
  exact piece_of_split htext rfl rfl

theorem piece_head {item : Item} (h : Stands source offset (item :: as)) :
    source.piece offset (offset + item.text.length : Nat) = item.text := by
  have hpiece := (show Stands source offset [item] from h.left).piece_eq
  simpa using hpiece

end Item.Stands

namespace Replaces

variable {source : Source} {flat : Bool} {offset : Nat} {items : List Item} {edits : List Edit}
  {ws : List Written}

/-- The edits lie where the items do. -/
theorem bounds (h : Replaces flat offset items edits ws) : ∀ edit ∈ edits,
    (offset : Int) ≤ edit.start ∧ edit.start < edit.stop ∧
      edit.stop ≤ (offset + Item.width items : Nat) := by
  induction h with
  | nil _ => exact fun _ h => absurd h List.not_mem_nil
  | keep _ ih =>
      intro edit hedit
      have hbounds := ih edit hedit
      rw [Item.width_cons]
      omega
  | edit _ _ ih =>
      intro edit hedit
      rw [Item.width_append]
      rcases List.mem_cons.mp hedit with rfl | hedit
      · dsimp only
        omega
      · have hbounds := ih edit hedit
        omega

/-- Put into the text, edits give what is written for the items. -/
theorem splice_keep (h : Replaces false offset items edits ws)
    (hstands : Item.Stands source offset items) :
    Edit.splice source.text Edit.keep (offset + Item.width items : Nat) offset edits =
      Written.textOf ws := by
  induction h with
  | nil offset => exact hstands.piece_eq
  | @keep offset item items edits ws others ih =>
      have hpiece := hstands.piece_head
      have hothers := ih hstands.tail
      rw [Nat.add_assoc, ← Item.width_cons] at hothers
      rw [Edit.splice_advance (fun _ _ => rfl) (Int.natCast_nonneg _)
        (Int.ofNat_le.mpr (Nat.le_add_right _ _))
        (by rw [Item.width_cons]; omega) (fun edit hedit => (others.bounds edit hedit).1), hothers,
        Written.textOf_cons]
      exact congrArg (· ++ _) hpiece
  | @edit offset row items edits vs ws row_pos others ih =>
      have hothers := ih hstands.right
      rw [Nat.add_assoc, ← Item.width_append] at hothers
      rw [Edit.splice_cons, hothers, Written.textOf_append]
      have hnone : Position.piece source.text offset offset = [] := by simp
      simp [Edit.keep, hnone, Written.render]

end Replaces

/-! ## Layout -/

namespace Desugar

variable {source : Source} {start stop : Int} {edits : List Edit}

/-- A lexeme that a range leaves out, or an edit covers, has no edit of its own. -/
def Skips (start stop : Int) (edits : List Edit) (lexeme : Lexeme) : Prop :=
  lexeme.offset < start ∨ stop < lexeme.stop ∨
    ∃ edit ∈ edits, edit.start ≤ lexeme.offset ∧ lexeme.offset < edit.stop

theorem skips_iff {lexeme : Lexeme} : Skips start stop edits lexeme ↔
    (lexeme.offset < start || stop < lexeme.stop ||
      edits.any (fun edit => edit.start ≤ lexeme.offset && lexeme.offset < edit.stop)) = true := by
  simp [Skips, or_assoc]

theorem layoutEdits_of_skips {lexeme : Lexeme} (h : Skips start stop edits lexeme)
    (layout : List Lexeme) :
    layoutEdits source start stop edits (lexeme :: layout) =
      layoutEdits source start stop edits layout := by
  rw [layoutEdits, if_pos (skips_iff.mp h)]

/-- A lexeme that is not skipped has the edit of its replacement, if it has one. -/
theorem layoutEdits_cons {lexeme : Lexeme} (h : ¬Skips start stop edits lexeme)
    {replacement : Option (List Char)}
    (hflat : flatLexeme lexeme.kind (source.piece lexeme.offset lexeme.stop) = .ok replacement)
    {layout : List Lexeme} {kept : List Edit}
    (hothers : layoutEdits source start stop edits layout = .ok kept) :
    layoutEdits source start stop edits (lexeme :: layout) =
      .ok ((replacement.map fun flat => ⟨lexeme.offset, lexeme.stop, flat⟩).toList ++ kept) := by
  rw [layoutEdits, if_neg (fun hskips => h (skips_iff.mpr hskips)), hflat, ok_bind]
  cases replacement with
  | none => exact hothers
  | some flat =>
      simp only [hothers]
      rfl

theorem layoutEdits_append_of_skips {layout : List Lexeme}
    (h : ∀ lexeme ∈ layout, Skips start stop edits lexeme) (others : List Lexeme) :
    layoutEdits source start stop edits (layout ++ others) =
      layoutEdits source start stop edits others := by
  induction layout with
  | nil => rfl
  | cons lexeme layout ih =>
      obtain ⟨hlexeme, hlayout⟩ := List.forall_mem_cons.mp h
      rw [List.cons_append, layoutEdits_of_skips hlexeme, ih hlayout]

/-- Only the lexemes of the range matter. -/
theorem layoutEdits_filter {layout : List Lexeme}
    (hspans : ∀ lexeme ∈ layout, lexeme.offset < lexeme.stop) :
    layoutEdits source start stop edits layout = layoutEdits source start stop edits
      (layout.filter fun lexeme => start ≤ lexeme.offset && lexeme.offset < stop) := by
  induction layout with
  | nil => rfl
  | cons lexeme layout ih =>
      obtain ⟨hspan, hothers⟩ := List.forall_mem_cons.mp hspans
      by_cases hin : start ≤ lexeme.offset ∧ lexeme.offset < stop
      · rw [List.filter_cons_of_pos (by simpa using hin), layoutEdits, layoutEdits, ih hothers]
      · rw [List.filter_cons_of_neg (by simpa using hin), ← ih hothers]
        apply layoutEdits_of_skips
        unfold Skips
        omega

/-- Edits in order are sorted. -/
theorem sortEdits_eq_of_perm {merged : List Edit} (h : merged.Pairwise fun a b => a.start < b.start)
    (hperm : merged.Perm edits) : sortEdits edits = merged := by
  have hsorted : (sortEdits edits).Pairwise fun a b => decide (a.start ≤ b.start) = true :=
    pairwise_sortBy (fun a b c => by simp only [decide_eq_true_eq]; omega)
      (fun a b => by simp only [decide_eq_true_eq]; omega) edits
  have hsymm : Std.Symm fun a b : Edit => a.start ≠ b.start := ⟨fun _ _ => Ne.symm⟩
  have hne : merged.Pairwise fun a b => a.start ≠ b.start := h.imp fun hlt => by omega
  refine List.Perm.eq_of_pairwise (fun a b ha hb hab hba => ?_) hsorted
    (h.imp fun hlt => by simp only [decide_eq_true_eq]; omega)
    ((sortBy_perm _ edits).trans hperm.symm)
  -- Two edits that begin at one place are one edit.
  refine Decidable.byContradiction fun hdifferent => ?_
  have hstart := hne.forall (hperm.mem_iff.mpr (mem_sortBy.mp ha)) hb hdifferent
  simp only [decide_eq_true_eq] at hab hba
  omega

end Desugar

/-- Whether items stand in a text at an offset, and a log has their comments and strings. -/
structure Item.Row (source : Source) (log : List Lexeme) (offset : Nat) (items : List Item) :
    Prop where
  stands : Item.Stands source offset items
  nonempty : ∀ item ∈ items, item.text ≠ []
  spans : ∀ lexeme ∈ log, lexeme.offset < lexeme.stop
  lexemes_eq : (log.filter fun lexeme => (offset : Int) ≤ lexeme.offset &&
    lexeme.offset < ((offset + Item.width items : Nat) : Int)) = Item.lexemes offset items
  flattens : ∀ lexeme ∈ Item.lexemes offset items, lexeme.Flattens source

/-- Of the comments and strings of items all or none are chosen, if it is so for all places in
them. -/
theorem Item.filter_lexemes {offset : Nat} {items : List Item}
    (hitems : ∀ item ∈ items, item.text ≠ []) {p : Lexeme → Bool} {chosen : Bool}
    (hp : ∀ lexeme : Lexeme, (offset : Int) ≤ lexeme.offset →
      lexeme.offset < ((offset + Item.width items : Nat) : Int) → p lexeme = chosen) :
    (lexemes offset items).filter p = if chosen then lexemes offset items else [] := by
  have hall : ∀ lexeme ∈ lexemes offset items, p lexeme = chosen := by
    intro lexeme hlexeme
    have hbounds := bounds_of_mem_lexemes hitems lexeme hlexeme
    exact hp lexeme hbounds.1 (by omega)
  cases chosen with
  | true => exact List.filter_eq_self.mpr hall
  | false => exact List.filter_eq_nil_iff.mpr fun lexeme hlexeme => by simp [hall lexeme hlexeme]

namespace Item.Row

variable {source : Source} {log : List Lexeme} {offset : Nat} {as bs : List Item}

theorem left (h : Row source log offset (as ++ bs)) : Row source log offset as where
  stands := h.stands.left
  nonempty item hitem := h.nonempty item (List.mem_append_left bs hitem)
  spans := h.spans
  lexemes_eq := by
    obtain ⟨has, hbs⟩ := List.forall_mem_append.mp h.nonempty
    let before (lexeme : Lexeme) : Bool := lexeme.offset < ((offset + Item.width as : Nat) : Int)
    have hall := congrArg (List.filter before) h.lexemes_eq
    have hfirst : (lexemes offset as).filter before = lexemes offset as :=
      filter_lexemes has fun lexeme _ hlt => decide_eq_true hlt
    have hsecond : (lexemes (offset + Item.width as) bs).filter before = [] :=
      filter_lexemes hbs fun lexeme hle _ => decide_eq_false (Int.not_lt.mpr hle)
    rw [lexemes_append, List.filter_append, List.filter_filter, hfirst, hsecond,
      List.append_nil] at hall
    rw [← hall]
    apply List.filter_congr
    intro lexeme _
    rw [width_append, Bool.eq_iff_iff]
    simp only [before, Bool.and_eq_true, decide_eq_true_eq]
    omega
  flattens lexeme hlexeme := h.flattens lexeme (by simp [hlexeme])

theorem right (h : Row source log offset (as ++ bs)) :
    Row source log (offset + Item.width as) bs where
  stands := h.stands.right
  nonempty item hitem := h.nonempty item (List.mem_append_right as hitem)
  spans := h.spans
  lexemes_eq := by
    obtain ⟨has, hbs⟩ := List.forall_mem_append.mp h.nonempty
    let behind (lexeme : Lexeme) : Bool := ((offset + Item.width as : Nat) : Int) ≤ lexeme.offset
    have hall := congrArg (List.filter behind) h.lexemes_eq
    have hfirst : (lexemes offset as).filter behind = [] :=
      filter_lexemes has fun lexeme _ hlt => decide_eq_false (Int.not_le.mpr hlt)
    have hsecond : (lexemes (offset + Item.width as) bs).filter behind =
        lexemes (offset + Item.width as) bs :=
      filter_lexemes hbs fun lexeme hle _ => decide_eq_true hle
    rw [lexemes_append, List.filter_append, List.filter_filter, hfirst, hsecond,
      List.nil_append] at hall
    rw [← hall]
    apply List.filter_congr
    intro lexeme _
    rw [width_append, Bool.eq_iff_iff]
    simp only [behind, Bool.and_eq_true, decide_eq_true_eq]
    omega
  flattens lexeme hlexeme := h.flattens lexeme (by simp [hlexeme])

theorem tail {item : Item} (h : Row source log offset (item :: as)) :
    Row source log (offset + item.text.length) as := by
  have hright : Row source log (offset + Item.width [item]) as := h.right
  simpa using hright

/-- The comments and strings of a stretch around the items are enough. -/
theorem restrict {start stop : Int} (h : Row source log offset as) (hstart : start ≤ offset)
    (hstop : ((offset + Item.width as : Nat) : Int) ≤ stop) :
    Row source (log.filter fun lexeme => start ≤ lexeme.offset && lexeme.offset < stop) offset
      as where
  stands := h.stands
  nonempty := h.nonempty
  spans lexeme hlexeme := h.spans lexeme (List.mem_filter.mp hlexeme).1
  lexemes_eq := by
    rw [List.filter_filter, ← h.lexemes_eq]
    refine List.filter_congr fun lexeme _ => ?_
    rw [Bool.and_eq_left_iff_imp, Bool.and_eq_true, Bool.and_eq_true, decide_eq_true_eq,
      decide_eq_true_eq, decide_eq_true_eq, decide_eq_true_eq]
    omega
  flattens := h.flattens

end Item.Row

namespace Item

variable {source : Source} {item : Item}

/-- What a comment or string is replaced by on one line is its flat text. -/
theorem flat_of_flatLexeme {kind : LexemeKind} (hkind : item.role.lexemeKind? = some kind)
    {replacement : Option (List Char)} (h : Desugar.flatLexeme kind item.text = .ok replacement) :
    item.flat = replacement.getD (OneLine.spaced item.text) := by
  rw [flat]
  cases hrole : item.role with
  | comment =>
      rw [hrole] at hkind
      cases hkind
      cases h
      rfl
  | string =>
      rw [hrole] at hkind
      cases hkind
      simp only [Desugar.flatLexeme] at h
      split at h
      · rename_i hflat
        cases h
        rw [hflat]
        rfl
      · cases h
  | _ =>
      rw [hrole] at hkind
      cases hkind

/-- Other items have only their line breaks replaced. -/
theorem flat_of_lexemeKind? (h : item.role.lexemeKind? = none) :
    item.flat = OneLine.spaced item.text := by
  rw [flat]
  cases hrole : item.role <;> first | rfl | (rw [hrole] at h; cases h)

end Item

/-- Whether edits in order give a text from an offset on, when the text between them is brought onto
one line. -/
structure Edit.Sweep (source : Source) (stop offset : Nat) (edits : List Edit)
    (written : List Char) : Prop where
  sorted : edits.Pairwise fun a b => a.start < b.start
  le_start : ∀ edit ∈ edits, (offset : Int) ≤ edit.start
  splice_eq : splice source.text OneLine.spaced stop offset edits = written

namespace Edit.Sweep

variable {source : Source} {stop offset mid : Nat} {edits : List Edit} {written : List Char}

theorem nil (source : Source) (offset : Nat) : Sweep source offset offset [] [] := by
  have hnone : Position.piece source.text offset offset = [] := by simp
  exact ⟨.nil, nofun, by simp [hnone, OneLine.spaced]⟩

/-- A piece before the edits is kept. -/
theorem keep (h : Sweep source stop mid edits written) (hoffset : offset ≤ mid)
    (hmid : mid ≤ stop) :
    Sweep source stop offset edits (OneLine.spaced (source.piece offset mid) ++ written) where
  sorted := h.sorted
  le_start edit hedit := Int.le_trans (Int.ofNat_le.mpr hoffset) (h.le_start edit hedit)
  splice_eq := by
    rw [splice_advance OneLine.spaced_append (Int.natCast_nonneg _) (Int.ofNat_le.mpr hoffset)
      (Int.ofNat_le.mpr hmid) h.le_start, h.splice_eq]
    rfl

/-- A piece before the edits is replaced. -/
theorem cons (h : Sweep source stop mid edits written) (hlt : offset < mid)
    (replacement : List Char) :
    Sweep source stop offset (⟨offset, mid, replacement⟩ :: edits) (replacement ++ written) where
  sorted := by
    refine List.pairwise_cons.mpr ⟨fun edit hedit => ?_, h.sorted⟩
    exact Int.lt_of_lt_of_le (Int.ofNat_lt.mpr hlt) (h.le_start edit hedit)
  le_start edit hedit := by
    rcases List.mem_cons.mp hedit with rfl | hedit
    · exact Int.le_refl _
    · have hstart := h.le_start edit hedit
      omega
  splice_eq := by
    have hnone : Position.piece source.text offset offset = [] := by simp
    rw [splice_cons, h.splice_eq, hnone]
    rfl

end Edit.Sweep

namespace Replaces

variable {source : Source} {offset : Nat} {item : Item} {row items : List Item}
    {all edits : List Edit} {vs ws : List Written} {start stop : Int} {kept merged : List Edit}

/-- The edits of a range, together with those of its layout, in order. -/
structure Merged (source : Source) (start stop : Int) (all edits : List Edit) (offset : Nat)
    (items : List Item) (ws : List Written) (kept merged : List Edit) : Prop where
  layout_eq : Desugar.layoutEdits source start stop all (Item.lexemes offset items) = .ok kept
  perm : merged.Perm (edits ++ kept)
  sweep : Edit.Sweep source (offset + Item.width items) offset merged (Written.render true ws)

/-- An item that no edit covers is flattened. -/
theorem Merged.keep
    (h : Merged source start stop all edits (offset + item.text.length) items ws kept merged)
    (hstands : Item.Stands source offset (item :: items)) (hpos : 0 < item.text.length)
    (hflat : ∀ lexeme ∈ (item.lexeme? offset), lexeme.Flattens source ∧
      ¬Desugar.Skips start stop all lexeme) :
    ∃ kept merged, Merged source start stop all edits offset (item :: items)
      (⟨item, false⟩ :: ws) kept merged := by
  have hpiece := hstands.piece_head
  have hstop :
      offset + item.text.length + Item.width items = offset + Item.width (item :: items) := by
    rw [Item.width_cons, Nat.add_assoc]
  have hkeep := (hstop ▸ h.sweep).keep (Nat.le_add_right offset item.text.length)
    (by rw [Item.width_cons]; omega)
  rw [hpiece] at hkeep
  cases hkind : item.role.lexemeKind? with
  | none =>
      have hlexemes : Item.lexemes offset (item :: items) =
          Item.lexemes (offset + item.text.length) items := by
        simp [Item.lexemes, Item.lexeme?, hkind]
      rw [← Item.flat_of_lexemeKind? hkind] at hkeep
      exact ⟨kept, merged, hlexemes ▸ h.layout_eq, h.perm, hkeep⟩
  | some kind =>
      have hlexeme :
          item.lexeme? offset = some ⟨kind, offset, (offset + item.text.length : Nat)⟩ := by
        simp [Item.lexeme?, hkind]
      have hlexemes : Item.lexemes offset (item :: items) =
          ⟨kind, offset, (offset + item.text.length : Nat)⟩ ::
            Item.lexemes (offset + item.text.length) items := by
        rw [Item.lexemes, hlexeme]
        rfl
      obtain ⟨⟨replacement, hreplacement⟩, hskips⟩ := hflat _ hlexeme
      have hlayout := Desugar.layoutEdits_cons hskips hreplacement h.layout_eq
      have hflatText := Item.flat_of_flatLexeme hkind (hpiece ▸ hreplacement)
      rw [← hlexemes] at hlayout
      cases replacement with
      | none =>
          rw [Option.getD_none] at hflatText
          rw [← hflatText] at hkeep
          exact ⟨kept, merged, hlayout, h.perm, hkeep⟩
      | some flat =>
          have hcons := (hstop ▸ h.sweep).cons (Nat.lt_add_of_pos_right hpos) flat
          rw [Option.getD_some] at hflatText
          rw [← hflatText] at hcons hlayout
          exact ⟨_, _, hlayout, (h.perm.cons _).trans List.perm_middle.symm, hcons⟩

/-- The comments and strings of a row with an edit are covered by it. -/
theorem Merged.edit
    (h : Merged source start stop all edits (offset + Item.width row) items ws kept merged)
    (hpos : 0 < Item.width row) (hrow : ∀ item ∈ row, item.text ≠ [])
    (hmem : ⟨offset, (offset + Item.width row : Nat), Written.render true vs⟩ ∈ all) :
    Merged source start stop all
      (⟨offset, (offset + Item.width row : Nat), Written.render true vs⟩ :: edits)
      offset (row ++ items) (vs ++ ws) kept
      (⟨offset, (offset + Item.width row : Nat), Written.render true vs⟩ :: merged) where
  layout_eq := by
    rw [Item.lexemes_append, Desugar.layoutEdits_append_of_skips _ _, h.layout_eq]
    intro lexeme hlexeme
    have hbounds := Item.bounds_of_mem_lexemes hrow lexeme hlexeme
    exact .inr (.inr ⟨_, hmem, hbounds.1, Int.lt_of_lt_of_le hbounds.2.1 hbounds.2.2⟩)
  perm := h.perm.cons _
  sweep := by
    have hsweep := h.sweep
    rw [Nat.add_assoc, ← Item.width_append] at hsweep
    rw [Written.render_append]
    exact hsweep.cons (Nat.lt_add_of_pos_right hpos) _

/-- On one line, too, edits give what is written for the items. -/
theorem exists_merged (h : Replaces true offset items edits ws)
    (hstands : Item.Stands source offset items) (hnonempty : ∀ item ∈ items, item.text ≠ [])
    (hflat : ∀ lexeme ∈ Item.lexemes offset items, lexeme.Flattens source)
    (hstart : start ≤ offset) (hstop : (offset + Item.width items : Nat) ≤ stop)
    {before : List Edit} (hbefore : ∀ edit ∈ before, edit.stop ≤ offset) :
    ∃ kept merged,
      Merged source start stop (before ++ edits) edits offset items ws kept merged := by
  induction h generalizing before with
  | nil offset => exact ⟨[], [], rfl, .nil, .nil source offset⟩
  | @keep offset item items edits ws others ih =>
      obtain ⟨hitem, hitems⟩ := List.forall_mem_cons.mp hnonempty
      have hpos := List.length_pos_iff.mpr hitem
      rw [Item.width_cons, ← Nat.add_assoc] at hstop
      obtain ⟨kept, merged, hmerged⟩ := ih hstands.tail hitems
        (fun lexeme hlexeme => hflat lexeme (List.mem_append_right _ hlexeme)) (by omega) hstop
        (fun edit hedit => by have := hbefore edit hedit; omega)
      refine hmerged.keep hstands hpos fun lexeme hlexeme => ?_
      refine ⟨hflat lexeme (List.mem_append_left _ (Option.mem_toList.mpr hlexeme)), ?_⟩
      obtain ⟨kind, -, rfl⟩ := Option.map_eq_some_iff.mp hlexeme
      rintro (hskip | hskip | ⟨edit, hedit, hcover⟩)
      · dsimp only at hskip
        omega
      · dsimp only at hskip
        omega
      · dsimp only at hcover
        rcases List.mem_append.mp hedit with hedit | hedit
        · have hbefore := hbefore edit hedit
          omega
        · have hbounds := others.bounds edit hedit
          omega
  | @edit offset row items edits vs ws row_pos others ih =>
      obtain ⟨hrow, hitems⟩ := List.forall_mem_append.mp hnonempty
      rw [Item.lexemes_append] at hflat
      rw [Item.width_append, ← Nat.add_assoc] at hstop
      have hbehind :
          ∀ edit ∈ before ++ [⟨offset, (offset + Item.width row : Nat), Written.render true vs⟩],
            edit.stop ≤ ((offset + Item.width row : Nat) : Int) := by
        intro edit hedit
        rcases List.mem_append.mp hedit with hedit | hedit
        · have hbefore := hbefore edit hedit
          omega
        · obtain rfl := List.mem_singleton.mp hedit
          exact Int.le_refl _
      obtain ⟨kept, merged, hmerged⟩ := ih hstands.right hitems
        (fun lexeme hlexeme => hflat lexeme (List.mem_append_right _ hlexeme)) (by omega) hstop
          hbehind
      rw [List.append_assoc, List.singleton_append] at hmerged
      exact ⟨_, _, hmerged.edit row_pos hrow (List.mem_append_right _ List.mem_cons_self)⟩

/-- A range with its edits is written as its items are. -/
theorem render_eq {layout : Option (List Lexeme)} (h : Replaces layout.isSome offset items edits ws)
    (hstands : Item.Stands source offset items)
    (hlayout : ∀ lexemes ∈ layout, Item.Row source lexemes offset items) :
    Desugar.render source offset (offset + Item.width items : Nat) edits layout =
      .ok (Written.render layout.isSome ws) := by
  cases layout with
  | none => exact congrArg Except.ok (h.splice_keep hstands)
  | some lexemes =>
      have hrow := hlayout lexemes rfl
      have hnone : ∀ edit ∈ ([] : List Edit), edit.stop ≤ offset :=
        fun _ h => absurd h List.not_mem_nil
      obtain ⟨kept, merged, hmerged⟩ := h.exists_merged hstands hrow.nonempty hrow.flattens
        (Int.le_refl _) (Int.le_refl _) hnone
      have hkept :
          Desugar.layoutEdits source offset (offset + Item.width items : Nat) edits lexemes =
          .ok kept := by
        rw [Desugar.layoutEdits_filter hrow.spans, hrow.lexemes_eq]
        exact hmerged.layout_eq
      rw [Desugar.render, hkept, Desugar.ok_bind,
        Desugar.sortEdits_eq_of_perm hmerged.sweep.sorted hmerged.perm, hmerged.sweep.splice_eq]
      rfl

end Replaces

/-! ## The edits of a plan -/

namespace Desugar

variable {source : Source}

/-- The edit of a compound assignment is made of its parts. -/
theorem reassignmentEdit_of_parts
    {editsOf : List Occurrence → Option (List Lexeme) → Except PlanFailure (List Edit)}
    {o : Occurrence} {inTarget inValue : List Occurrence} {layout : Option (List Lexeme)}
    {operator : Int} {mark : Char} {target copy value : List Char}
    (hoperator : findOperator source o = .ok (operator, mark))
    (hinTarget : ∀ inner ∈ inTarget, inner.stop ≤ operator)
    (hinValue : ∀ inner ∈ inValue, operator + 2 ≤ inner.offset ∧ inner.offset < inner.stop)
    (htarget : renderWith source editsOf o.offset operator inTarget layout = .ok target)
    (hcopy : renderWith source editsOf o.offset operator inTarget (some (layout.getD o.layout)) =
      .ok copy)
    (hvalue : renderWith source editsOf (operator + 2) o.stop inValue layout = .ok value) :
    reassignmentEdit source editsOf o (inTarget ++ inValue) layout =
      .ok ⟨o.offset, o.stop, target ++ '=' :: (copy ++ mark :: '(' :: (value ++ [')']))⟩ := by
  have hbeside :
      (inTarget ++ inValue).find? (fun inner => !besideOperator operator inner) = none := by
    rw [List.find?_eq_none]
    intro inner hinner
    simp only [besideOperator, Bool.not_eq_true', Bool.not_eq_false, Bool.or_eq_true,
      decide_eq_true_eq]
    rcases List.mem_append.mp hinner with hinner | hinner
    · exact .inl (hinTarget inner hinner)
    · exact .inr (hinValue inner hinner).1
  have hfirst : (inTarget ++ inValue).filter (fun inner => inner.stop ≤ operator) = inTarget := by
    rw [List.filter_append, List.filter_eq_self.mpr, List.filter_eq_nil_iff.mpr, List.append_nil]
    · intro inner hinner
      have hbounds := hinValue inner hinner
      rw [decide_eq_true_eq]
      omega
    · exact fun inner hinner => decide_eq_true (hinTarget inner hinner)
  have hsecond : (inTarget ++ inValue).filter (fun inner => operator < inner.stop) = inValue := by
    rw [List.filter_append, List.filter_eq_nil_iff.mpr, List.filter_eq_self.mpr, List.nil_append]
    · intro inner hinner
      have hbounds := hinValue inner hinner
      rw [decide_eq_true_eq]
      omega
    · intro inner hinner
      have hbounds := hinTarget inner hinner
      rw [decide_eq_true_eq]
      omega
  rw [renderWith] at htarget hcopy hvalue
  rw [reassignmentEdit, hoperator, ok_bind]
  simp only [hbeside, hfirst, hsecond]
  cases layout with
  | none =>
      rw [Option.getD_none] at hcopy
      simp only [htarget, hcopy, hvalue, ok_bind]
  | some lexemes =>
      rw [Option.getD_some, htarget] at hcopy
      cases hcopy
      simp only [htarget, hvalue, ok_bind]

/-- The edits of occurrences begin with that of the first one, made with those inside it. -/
theorem edits_cons {steps : Nat} {outer : Occurrence} {nested others : List Occurrence}
    {layout : Option (List Lexeme)} {edit : Edit} {found : List Edit}
    (hnested : ∀ inner ∈ nested, inner.offset < outer.stop ∧ inner.stop ≤ outer.stop)
    (hothers : ∀ other ∈ others, outer.stop ≤ other.offset)
    (hedit : (match outer.kind with
      | .notEqual => notEqualEdit source outer nested
      | _ => reassignmentEdit source (edits source steps) outer nested layout) = .ok edit)
    (hfound : edits source steps others layout = .ok found) :
    edits source (steps + 1) (outer :: (nested ++ others)) layout = .ok (edit :: found) := by
  have hinside : ∀ inner ∈ nested, decide (inner.offset < outer.stop) = true :=
    fun inner hinner => decide_eq_true (hnested inner hinner).1
  have hbehind : ∀ other ∈ others, decide (other.offset < outer.stop) = false :=
    fun other hother => decide_eq_false (Int.not_lt.mpr (hothers other hother))
  have htake : (nested ++ others).takeWhile (fun inner => inner.offset < outer.stop) = nested := by
    rw [List.takeWhile_append_of_pos hinside]
    cases others with
    | nil => rw [List.takeWhile_nil, List.append_nil]
    | cons other others =>
        rw [List.takeWhile_cons_of_neg (by simp [hbehind other List.mem_cons_self]),
          List.append_nil]
  have hdrop : (nested ++ others).dropWhile (fun inner => inner.offset < outer.stop) = others := by
    rw [List.dropWhile_append_of_pos hinside]
    cases others with
    | nil => rfl
    | cons other others =>
        rw [List.dropWhile_cons_of_neg (by simp [hbehind other List.mem_cons_self])]
  have hnone : nested.find? (fun inner => decide (outer.stop < inner.stop)) = none := by
    rw [List.find?_eq_none]
    intro inner hinner
    have hle := (hnested inner hinner).2
    rw [decide_eq_true_eq]
    omega
  rw [edits, htake, hdrop]
  cases hkind : outer.kind <;> rw [hkind] at hedit <;> simp only [hnone, hedit, hfound, ok_bind]

/-- The operator of a compound assignment stands behind its target. -/
theorem findOperator_of_stands {o : Occurrence} {offset : Nat} {target more : List Item}
    {mark : Char}
    (hstands : Item.Stands source offset (target ++ ⟨.extension, [mark, '=']⟩ :: more))
    (hoffset : o.offset = offset) (hwidth : 0 < Item.width target)
    (hoperator : o.operator = some ((offset + Item.width target : Nat) : Int))
    (hstop : ((offset + Item.width target + 2 : Nat) : Int) ≤ o.stop) (hmark : mark ∈ operators) :
    findOperator source o = .ok (((offset + Item.width target : Nat) : Int), mark) := by
  obtain ⟨before, after, htext, hlength⟩ := hstands.right
  have hchar : ∀ k, source.text[offset + Item.width target + k]? =
      (mark :: '=' :: (Item.textOf more ++ after))[k]? := by
    intro k
    rw [← Array.getElem?_toList]
    change source.chars[offset + Item.width target + k]? = _
    rw [htext, List.getElem?_append_right (by omega), hlength, Nat.add_sub_cancel_left]
    rfl
  have hfirst : Position.char? source.text ((offset + Item.width target : Nat) : Int) = some mark :=
    (Position.char?_natCast _ _).trans (hchar 0)
  have hsecond :
      Position.char? source.text (((offset + Item.width target : Nat) : Int) + 1) = some '=' :=
    (Position.char?_natCast _ (offset + Item.width target + 1)).trans (hchar 1)
  have hplace : o.offset < ((offset + Item.width target : Nat) : Int) ∧
      ((offset + Item.width target : Nat) : Int) + 2 ≤ o.stop := by omega
  simp only [findOperator, hoperator, if_pos hplace, hfirst, hsecond]
  rw [if_pos]
  simpa using List.contains_iff_mem.mpr hmark

end Desugar

/-- Put between items, a symbol is written as it is. -/
theorem Written.text_mark {c : Char} (hc : OneLine.isLineEnd c = false) (flat : Bool) :
    render flat [mark c] = [c] := by
  cases flat with
  | false => rfl
  | true =>
      have hspaced : OneLine.spaced [c] = [c] := by simp [OneLine.spaced, hc]
      simpa [render, mark, flatten, textOf, text, Item.flat] using hspaced

@[simp]
theorem Written.render_map_flatten (flat : Bool) (ws : List Written) :
    render flat (ws.map flatten) = render true ws := by
  cases flat with
  | false => rfl
  | true =>
      change textOf ((ws.map flatten).map flatten) = textOf (ws.map flatten)
      rw [List.map_map]
      rfl

/-- What is written for a compound assignment. -/
theorem Written.render_assignment {c : Char} (hc : c ∈ Desugar.operators) (flat : Bool)
    (first second : List Written) :
    render flat (first ++ mark '=' :: (first.map flatten ++ mark c :: mark '(' ::
      (second ++ [mark ')']))) =
      render flat first ++ '=' ::
        (render true first ++ c :: '(' :: (render flat second ++ [')'])) := by
  have hline : OneLine.isLineEnd c = false :=
    Desugar.not_isLineEnd_of_operators (List.contains_iff_mem.mpr hc)
  have hcons : ∀ (d : Char) (ws : List Written), OneLine.isLineEnd d = false →
      render flat (mark d :: ws) = d :: render flat ws := by
    intro d ws hd
    rw [← List.singleton_append, render_append, text_mark hd]
    rfl
  rw [render_append, hcons _ _ (by decide), render_append, hcons _ _ hline, hcons _ _ (by decide),
    render_append, text_mark (by decide), render_map_flatten]

namespace Desugars

variable {source : Source} {log : List Lexeme} {offset : Nat} {items : List Item}
    {os : List Occurrence} {ws : List Written}

/-- Whether occurrences become edits that replace their items. -/
def Edits (source : Source) (steps : Nat) (layout : Option (List Lexeme)) (offset : Nat)
    (items : List Item) (os : List Occurrence) (ws : List Written) : Prop :=
  ∃ found, Desugar.edits source steps os layout = .ok found ∧
    Replaces layout.isSome offset items found ws

theorem Edits.renderWith_eq {steps : Nat} {layout : Option (List Lexeme)}
    (h : Edits source steps layout offset items os ws) (hstands : Item.Stands source offset items)
    (hlayout : ∀ lexemes ∈ layout, Item.Row source lexemes offset items) :
    Desugar.renderWith source (Desugar.edits source steps) offset (offset + Item.width items : Nat)
      os layout = .ok (Written.render layout.isSome ws) := by
  obtain ⟨found, hfound, hreplaces⟩ := h
  rw [Desugar.renderWith, hfound, Desugar.ok_bind]
  exact hreplaces.render_eq hstands hlayout

variable {steps : Nat} {layout : Option (List Lexeme)}

/-- A comparison becomes one edit. -/
theorem edits_of_comparison {o : Occurrence} (kind : o.kind = .notEqual)
    (offset_eq : o.offset = offset)
    (stop_eq : o.stop = offset + 2) (others : Desugars log (offset + 2) items os ws)
    (hstands : Item.Stands source offset (⟨.extension, ['!', '=']⟩ :: items))
    (hedits : Edits source steps layout (offset + 2) items os ws) :
    Edits source (steps + 1) layout offset (⟨.extension, ['!', '=']⟩ :: items) (o :: os)
      (⟨⟨.symbol, ['~', '=']⟩, false⟩ :: ws) := by
  obtain ⟨found, hfound, hreplaces⟩ := hedits
  have hpiece : source.piece o.offset (o.offset + 2) = ['!', '='] := by
    rw [offset_eq]
    exact hstands.piece_head
  have hedit : Desugar.notEqualEdit source o [] = .ok ⟨offset, (offset + 2 : Nat), ['~', '=']⟩ := by
    rw [Desugar.notEqualEdit]
    simp only [hpiece, if_true]
    rw [offset_eq]
    rfl
  have hothers : ∀ other ∈ os, o.stop ≤ other.offset := by
    intro other hother
    have hbounds := others.bounds other hother
    omega
  have hrender : Written.render layout.isSome [⟨⟨.symbol, ['~', '=']⟩, false⟩] = ['~', '='] := by
    cases layout <;> rfl
  have hall := @Replaces.edit layout.isSome offset [⟨.extension, ['!', '=']⟩] items found
    [⟨⟨.symbol, ['~', '=']⟩, false⟩] ws (by decide) hreplaces
  rw [hrender] at hall
  exact ⟨_, @Desugar.edits_cons source steps o [] os layout _ found (by simp) hothers
    (by rw [kind]; exact hedit) hfound, hall⟩

/-- The edit of a compound assignment is made of what is written for its target and its value. -/
theorem edit_of_assigns {o : Occurrence} {mark : Char} {target value : List Item}
    {inTarget inValue : List Occurrence} {first second : List Written}
    (h : Assigns log offset o mark target value inTarget inValue first second)
    (hrow : Item.Row source log offset (target ++ ⟨.extension, [mark, '=']⟩ :: (value ++ items)))
    (hlayout : ∀ lexemes ∈ layout,
      Item.Row source lexemes offset (target ++ ⟨.extension, [mark, '=']⟩ :: (value ++ items)))
    (hinner : ∀ layout, (∀ lexemes ∈ layout, Item.Row source lexemes offset target) →
      Edits source steps layout offset target inTarget first)
    (hright : Edits source steps layout (offset + Item.width target + 2) value inValue second) :
    Desugar.renderWith source (Desugar.edits source steps) o.offset
        (offset + Item.width target : Nat) inTarget layout =
          .ok (Written.render layout.isSome first) ∧
      Desugar.renderWith source (Desugar.edits source steps) o.offset
        (offset + Item.width target : Nat) inTarget (some (layout.getD o.layout)) =
          .ok (Written.render true first) ∧
      Desugar.reassignmentEdit source (Desugar.edits source steps) o (inTarget ++ inValue) layout =
        .ok ⟨o.offset, o.stop,
          Written.render layout.isSome first ++ '=' :: (Written.render true first ++
            mark :: '(' :: (Written.render layout.isSome second ++ [')']))⟩ := by
  have hoffset := h.offset_eq
  have hstop := h.stop_eq
  have hwidth : 0 < Item.width target := by
    obtain ⟨item, hitem, -⟩ := h.starts
    obtain ⟨more, rfl⟩ := List.head?_eq_some_iff.mp hitem
    have hpos := List.length_pos_iff.mpr (hrow.nonempty item List.mem_cons_self)
    rw [Item.width_cons]
    omega
  have hoperator :=
    Desugar.findOperator_of_stands hrow.stands hoffset hwidth h.operator_eq (by omega) h.mark_mem
  have hvalueRow : ∀ {lexemes}, Item.Row source lexemes offset
      (target ++ ⟨.extension, [mark, '=']⟩ :: (value ++ items)) →
        Item.Row source lexemes (offset + Item.width target + 2) value :=
    fun h => h.right.tail.left
  have htarget :=
    (hinner layout fun lexemes h => (hlayout lexemes h).left).renderWith_eq hrow.stands.left
      fun lexemes h => (hlayout lexemes h).left
  have hown : ∀ lexemes ∈ some (layout.getD o.layout), Item.Row source lexemes offset target := by
    intro lexemes hlexemes
    cases hlexemes
    cases layout with
    | none =>
        rw [Option.getD_none, h.layout_eq]
        exact hrow.left.restrict (Int.le_refl _) (Int.le_refl _)
    | some lexemes => exact (hlayout lexemes rfl).left
  have hcopy := (hinner _ hown).renderWith_eq hrow.stands.left hown
  have hvalue :=
    hright.renderWith_eq (hvalueRow hrow).stands fun lexemes h => hvalueRow (hlayout lexemes h)
  rw [← hoffset] at htarget hcopy
  refine ⟨htarget, hcopy,
    Desugar.reassignmentEdit_of_parts hoperator ?_ ?_ htarget hcopy (hstop ▸ hvalue)⟩
  · exact fun nested hnested => (h.inner.bounds nested hnested).2.2
  · exact fun nested hnested =>
      ⟨(h.right.bounds nested hnested).1, (h.right.bounds nested hnested).2.1⟩

/-- A compound assignment becomes one edit, in which its target is written twice. -/
theorem edits_of_assignment {o : Occurrence} {mark : Char} {target value : List Item}
    {inTarget inValue : List Occurrence} {first second : List Written}
    (kind : o.kind = .reassignment)
    (h : Assigns log offset o mark target value inTarget inValue first second)
    (others : Desugars log (offset + Item.width target + 2 + Item.width value) items os ws)
    (hrow : Item.Row source log offset (target ++ ⟨.extension, [mark, '=']⟩ :: (value ++ items)))
    (hlayout : ∀ lexemes ∈ layout,
      Item.Row source lexemes offset (target ++ ⟨.extension, [mark, '=']⟩ :: (value ++ items)))
    (hinner : ∀ layout, (∀ lexemes ∈ layout, Item.Row source lexemes offset target) →
      Edits source steps layout offset target inTarget first)
    (hright : Edits source steps layout (offset + Item.width target + 2) value inValue second)
    (hothers :
      Edits source steps layout (offset + Item.width target + 2 + Item.width value) items os ws) :
    Edits source (steps + 1) layout offset (target ++ ⟨.extension, [mark, '=']⟩ :: (value ++ items))
      (o :: (inTarget ++ (inValue ++ os)))
      (first ++ .mark '=' :: (first.map Written.flatten ++ .mark mark :: .mark '(' ::
        (second ++ .mark ')' :: ws))) := by
  have hoffset := h.offset_eq
  have hstop := h.stop_eq
  obtain ⟨found, hfound, hreplaces⟩ := hothers
  have hnested : ∀ nested ∈ inTarget ++ inValue, nested.offset < o.stop ∧ nested.stop ≤ o.stop := by
    intro nested hnested
    rcases List.mem_append.mp hnested with hnested | hnested
    · have hbounds := h.inner.bounds nested hnested
      omega
    · have hbounds := h.right.bounds nested hnested
      omega
  have hbehind : ∀ other ∈ os, o.stop ≤ other.offset := by
    intro other hother
    have hbounds := others.bounds other hother
    omega
  have hend : o.stop =
      ((offset + Item.width (target ++ ⟨.extension, [mark, '=']⟩ :: value) : Nat) : Int) := by
    rw [hstop, Item.width_append, Item.width_cons]
    simp only [List.length_cons, List.length_nil]
    omega
  obtain ⟨-, -, hedit⟩ := edit_of_assigns h hrow hlayout hinner hright
  have hedits := Desugar.edits_cons hnested hbehind (by rw [kind]; exact hedit) hfound
  have hafter : offset + Item.width target + 2 + Item.width value =
      offset + Item.width (target ++ ⟨.extension, [mark, '=']⟩ :: value) := by
    rw [Item.width_append, Item.width_cons]
    simp only [List.length_cons, List.length_nil]
    omega
  rw [hafter] at hreplaces
  have hpositive : 0 < Item.width (target ++ ⟨.extension, [mark, '=']⟩ :: value) := by
    rw [Item.width_append, Item.width_cons]
    simp only [List.length_cons, List.length_nil]
    omega
  have hall :=
    @Replaces.edit layout.isSome offset (target ++ ⟨.extension, [mark, '=']⟩ :: value) items found
      (first ++ .mark '=' ::
        (first.map Written.flatten ++ .mark mark :: .mark '(' :: (second ++ [.mark ')'])))
      ws hpositive hreplaces
  rw [Written.render_assignment h.mark_mem, ← hend, ← hoffset] at hall
  refine ⟨_, by simpa using hedits, ?_⟩
  simpa using hall

/-- Occurrences become edits that replace their items. -/
theorem edits (h : Desugars log offset items os ws) (hrow : Item.Row source log offset items)
    (hsteps : os.length ≤ steps)
    (hlayout : ∀ lexemes ∈ layout, Item.Row source lexemes offset items) :
    Edits source steps layout offset items os ws := by
  induction h generalizing steps layout with
  | nil offset => exact ⟨[], by cases steps <;> rfl, .nil offset⟩
  | keep plain others ih =>
      obtain ⟨found, hfound, hreplaces⟩ :=
        ih hrow.tail hsteps fun lexemes h => (hlayout lexemes h).tail
      exact ⟨found, hfound, .keep hreplaces⟩
  | comparison kind offset_eq stop_eq others ih =>
      cases steps with
      | zero => cases hsteps
      | succ steps =>
          exact edits_of_comparison kind offset_eq stop_eq others hrow.stands
            (ih hrow.tail (Nat.le_of_succ_le_succ hsteps) fun lexemes h => (hlayout lexemes h).tail)
  | assignment kind offset_eq operator_eq stop_eq layout_eq mark_mem starts closes ends inner right
        others ihinner ihright ihothers =>
      simp only [List.length_cons, List.length_append] at hsteps
      cases steps with
      | zero => cases hsteps
      | succ steps =>
          exact edits_of_assignment kind
            ⟨offset_eq, operator_eq, stop_eq, layout_eq, mark_mem, starts, closes, inner,
              right⟩ others hrow
            hlayout (fun layout => ihinner hrow.left (by omega))
            (ihright hrow.right.tail.left (by omega) fun lexemes h =>
              (hlayout lexemes h).right.tail.left)
            (ihothers hrow.right.tail.right (by omega) fun lexemes h =>
              (hlayout lexemes h).right.tail.right)

end Desugars

end CartLua
