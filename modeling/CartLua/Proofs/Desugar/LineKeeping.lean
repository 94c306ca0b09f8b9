import CartLua.Proofs.Desugar.OneLine

/-!
# Edits that keep lines

An edit keeps lines if its replacement has as many line feeds as what it replaces.  Of
edits in a row that keep lines, every character between them keeps its line number.

The edit of a compound assignment is of this kind: its target and its value keep the
lines of the text, and the second copy of the target has none.
-/

namespace CartLua

namespace Position

variable {text : Array Char} {a b c : Int}

/-- A piece is made of the pieces before and after a position in it. -/
theorem piece_append (ha : 0 ≤ a) (hab : a ≤ b) (hbc : b ≤ c) :
    piece text a b ++ piece text b c = piece text a c := by
  obtain ⟨a, rfl⟩ := Int.eq_ofNat_of_zero_le ha
  obtain ⟨b, rfl⟩ := Int.eq_ofNat_of_zero_le (Int.le_trans ha hab)
  obtain ⟨c, rfl⟩ := Int.eq_ofNat_of_zero_le (Int.le_trans ha (Int.le_trans hab hbc))
  have hab' : a ≤ b := by omega
  have hbc' : b ≤ c := by omega
  rw [piece_natCast, piece_natCast, piece_natCast, ← Array.toList_append,
    Array.extract_append_extract, Nat.min_eq_left hab', Nat.max_eq_right hbc']

theorem length_piece (text : Array Char) (ha : 0 ≤ a) (hab : a ≤ b) (hb : b ≤ text.size) :
    ((piece text a b).length : Int) = b - a := by
  obtain ⟨a, rfl⟩ := Int.eq_ofNat_of_zero_le ha
  obtain ⟨b, rfl⟩ := Int.eq_ofNat_of_zero_le (Int.le_trans ha hab)
  rw [piece_natCast, Array.length_toList, Array.size_extract]
  omega

/-- A piece around a character of the text. -/
theorem piece_split {i : Nat} (ha : 0 ≤ a) (hai : a ≤ i) (hib : (i : Int) < b)
    (hsize : i < text.size) : ∃ after, piece text a b = piece text a i ++ text[i] :: after := by
  obtain ⟨b, rfl⟩ :=
    Int.eq_ofNat_of_zero_le (Int.le_trans (Int.natCast_nonneg i) (Int.le_of_lt hib))
  have hlt : i < b := by omega
  have hhead : ∃ after, piece text i b = text[i] :: after := by
    rw [piece_natCast, Array.toList_extract, List.extract_eq_take_drop,
      List.drop_eq_getElem_cons (by simpa using hsize),
      ← Nat.succ_pred_eq_of_pos (Nat.sub_pos_of_lt hlt),
      List.take_succ_cons, Array.getElem_toList]
    exact ⟨_, rfl⟩
  obtain ⟨after, hafter⟩ := hhead
  exact ⟨after, by rw [← piece_append ha hai (Int.le_of_lt hib), hafter]⟩

theorem piece_zero_size : piece text 0 text.size = text.toList := by
  have hpiece := piece_natCast text 0 text.size
  simpa using hpiece

theorem piece_zero {i : Nat} : piece text 0 i = text.toList.take i := by
  have hpiece := piece_natCast text 0 i
  simpa using hpiece

end Position

namespace Edit

variable {text : Array Char} {stop : Int}

/-- Whether edits between two positions are in order and keep lines. -/
def KeepLines (text : Array Char) (stop : Int) : (cursor : Int) → List Edit → Prop
  | cursor, [] => cursor ≤ stop
  | cursor, edit :: edits =>
      cursor ≤ edit.start ∧ edit.start ≤ edit.stop ∧
        edit.replacement.count '\n' = (Position.piece text edit.start edit.stop).count '\n' ∧
        KeepLines text stop edit.stop edits

theorem KeepLines.le {cursor : Int} {edits : List Edit} (h : KeepLines text stop cursor edits) :
    cursor ≤ stop := by
  induction edits generalizing cursor with
  | nil => exact h
  | cons edit edits ih =>
      obtain ⟨hstart, hle, -, hothers⟩ := h
      have := ih hothers
      omega

/-- Edits that keep lines leave the number of line feeds as it is. -/
theorem KeepLines.count_splice {cursor : Int} {edits : List Edit}
    (h : KeepLines text stop cursor edits) (hcursor : 0 ≤ cursor) :
    (splice text keep stop cursor edits).count '\n' =
      (Position.piece text cursor stop).count '\n' := by
  induction edits generalizing cursor with
  | nil => rfl
  | cons edit edits ih =>
      obtain ⟨hstart, hle, hlines, hothers⟩ := h
      have hstop := hothers.le
      calc (splice text keep stop cursor (edit :: edits)).count '\n'
          = (Position.piece text cursor edit.start).count '\n' +
              ((Position.piece text edit.start edit.stop).count '\n' +
                (Position.piece text edit.stop stop).count '\n') := by
            rw [splice_cons, List.count_append, List.count_append, ih hothers (by omega), hlines]
            rfl
        _ = (Position.piece text cursor stop).count '\n' := by
            rw [← List.count_append, ← List.count_append,
              Position.piece_append (by omega) hle hstop,
              Position.piece_append hcursor hstart (by omega)]

/-- Where a character that is kept goes. -/
def place (text : Array Char) : (cursor : Int) → List Edit → Nat → Nat
  | cursor, [], i => (Position.piece text cursor i).length
  | cursor, edit :: edits, i =>
      if (i : Int) < edit.start then (Position.piece text cursor i).length
      else
        (Position.piece text cursor edit.start).length + edit.replacement.length +
          place text edit.stop edits i

/-- Whether an offset lies outside all of some edits. -/
def Outside (edits : List Edit) (i : Nat) : Prop :=
  ∀ edit ∈ edits, (i : Int) < edit.start ∨ edit.stop ≤ i

theorem Outside.of_cons {edit : Edit} {edits : List Edit} {i : Nat}
    (h : Outside (edit :: edits) i) : Outside edits i :=
  fun other hother => h other (List.mem_cons_of_mem edit hother)

/-- A character outside the edits is kept, with as many line feeds before it as there
were. -/
theorem KeepLines.splice_place {cursor : Int} {edits : List Edit}
    (h : KeepLines text stop cursor edits) (hcursor : 0 ≤ cursor) {i : Nat} (hi : cursor ≤ i)
    (hstop : (i : Int) < stop) (hsize : i < text.size) (hout : Outside edits i) :
    ∃ before after, splice text keep stop cursor edits = before ++ text[i] :: after ∧
      before.length = place text cursor edits i ∧
      before.count '\n' = (Position.piece text cursor i).count '\n' := by
  induction edits generalizing cursor with
  | nil =>
      obtain ⟨after, hsplit⟩ := Position.piece_split hcursor hi hstop hsize
      exact ⟨Position.piece text cursor i, after, hsplit, rfl, rfl⟩
  | cons edit edits ih =>
      obtain ⟨hstart, hle, hlines, hothers⟩ := h
      rw [splice_cons, place]
      by_cases hbefore : (i : Int) < edit.start
      · obtain ⟨after, hsplit⟩ := Position.piece_split hcursor hi hbefore hsize
        refine ⟨Position.piece text cursor i,
          after ++ (edit.replacement ++ splice text keep stop edit.stop edits), ?_, ?_, rfl⟩
        · rw [keep, hsplit, List.append_assoc, List.cons_append]
        · rw [if_pos hbefore]
      · have hafter := (hout edit List.mem_cons_self).resolve_left hbefore
        obtain ⟨before, after, hsplit, hlength, hcount⟩ :=
          ih hothers (by omega) hafter hout.of_cons
        refine ⟨Position.piece text cursor edit.start ++ (edit.replacement ++ before), after, ?_,
          ?_, ?_⟩
        · rw [keep, hsplit, List.append_assoc, List.append_assoc]
        · rw [if_neg hbefore, List.length_append, List.length_append, hlength, Nat.add_assoc]
        · calc (Position.piece text cursor edit.start ++ (edit.replacement ++ before)).count '\n'
              = (Position.piece text cursor edit.start).count '\n' +
                  ((Position.piece text edit.start edit.stop).count '\n' +
                    (Position.piece text edit.stop i).count '\n') := by
                rw [List.count_append, List.count_append, hlines, hcount]
            _ = (Position.piece text cursor i).count '\n' := by
                rw [← List.count_append, ← List.count_append,
                  Position.piece_append (by omega) hle hafter,
                  Position.piece_append hcursor hstart (by omega)]

/-- Characters that are kept stay in order. -/
theorem KeepLines.place_lt {cursor : Int} {edits : List Edit}
    (h : KeepLines text stop cursor edits) (hcursor : 0 ≤ cursor) {i j : Nat} (hi : cursor ≤ i)
    (hij : i < j) (hsize : j ≤ text.size) (houti : Outside edits i) (houtj : Outside edits j) :
    place text cursor edits i < place text cursor edits j := by
  induction edits generalizing cursor with
  | nil =>
      have hlengthi := Position.length_piece text hcursor hi (by omega)
      have hlengthj := Position.length_piece text hcursor (b := (j : Int)) (by omega) (by omega)
      rw [place, place]
      omega
  | cons edit edits ih =>
      obtain ⟨hstart, hle, -, hothers⟩ := h
      rw [place, place]
      by_cases hbefore : (j : Int) < edit.start
      · have hlengthi := Position.length_piece text hcursor hi (by omega)
        have hlengthj := Position.length_piece text hcursor (b := (j : Int)) (by omega) (by omega)
        rw [if_pos (by omega), if_pos hbefore]
        omega
      · have hafter := (houtj edit List.mem_cons_self).resolve_left hbefore
        rw [if_neg hbefore]
        by_cases hbeforei : (i : Int) < edit.start
        · have hlengthi := Position.length_piece text hcursor hi (by omega)
          have hlengthe := Position.length_piece text hcursor hstart (by omega)
          rw [if_pos hbeforei]
          omega
        · have hafteri := (houti edit List.mem_cons_self).resolve_left hbeforei
          have hlt := ih hothers (by omega) hafteri houti.of_cons houtj.of_cons
          rw [if_neg hbeforei]
          omega

end Edit

end CartLua
