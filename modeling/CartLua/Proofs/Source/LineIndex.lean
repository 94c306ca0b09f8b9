import Mathlib.Data.List.TakeWhile
import Mathlib.Data.Prod.Lex
import Mathlib.Order.Interval.Set.Defs
import Mathlib.Order.Monotone.Basic
import CartLua.Proofs.Desugar.LinePreservation

/-!
# Lines and columns

The index of a source turns offsets into lines and columns by looking for the last line that begins
at or before the offset, and lines and columns back by adding up.  Both are told here from the
lines themselves, which are what the line feeds of the text separate.  A line feed lies in the line
that it ends, one column behind its last character, so that every offset of the text, and the end of
the text, lies in just one line.
-/

namespace CartLua

namespace Text

/-- A text by its lines: the last one ends with the text, the ones before it with a line feed. -/
theorem lines_induction {P : List Char → Prop} (last : ∀ line, '\n' ∉ line → P line)
    (more : ∀ line rest, '\n' ∉ line → P rest → P (line ++ '\n' :: rest)) (cs : List Char) :
    P cs := by
  have hline : ∀ line, '\n' ∉ line → P (line ++ cs) := by
    induction cs with
    | nil =>
        intro line hline
        rw [List.append_nil]
        exact last line hline
    | cons c cs ih =>
        intro line hline
        by_cases hc : c = '\n'
        · subst hc
          exact more line cs hline (ih [] List.not_mem_nil)
        · have hlonger : '\n' ∉ line ++ [c] := by simpa [hline] using Ne.symm hc
          simpa using ih (line ++ [c]) hlonger
  exact hline [] List.not_mem_nil

end Text

namespace LineStart

variable {line rest : List Char}

/-- A line without a line feed begins no further line. -/
theorem scan_of_not_mem (place : LineStart) (hline : '\n' ∉ line) : place.scan line = [] := by
  induction line generalizing place with
  | nil => rfl
  | cons c line ih =>
      rw [List.mem_cons, not_or] at hline
      rw [scan, if_neg (Ne.symm hline.1)]
      exact ih _ hline.2

/-- Where the line after a line begins that is at this place. -/
def after (place : LineStart) (line : List Char) : LineStart where
  offset := place.offset + line.length + 1
  byteOffset := place.byteOffset + line.foldr (fun c bytes => c.utf8Size + bytes) 0 + 1

/-- The next line begins behind the line feed of the first one. -/
theorem scan_append_feed (place : LineStart) (hline : '\n' ∉ line) (rest : List Char) :
    place.scan (line ++ '\n' :: rest) = place.after line :: (place.after line).scan rest := by
  induction line generalizing place with
  | nil => rfl
  | cons c line ih =>
      rw [List.mem_cons, not_or] at hline
      rw [List.cons_append, scan, if_neg (Ne.symm hline.1)]
      have hafter : after ⟨place.offset + 1, place.byteOffset + c.utf8Size⟩ line =
          place.after (c :: line) := by
        simp only [after, List.length_cons, List.foldr_cons, LineStart.mk.injEq]
        omega
      rw [ih _ hline.2, hafter]

/-- A text from a place on has a line with this number, from zero on, that begins at `start` and
says `line`. -/
inductive HasLine : (place : LineStart) → (cs : List Char) → (number : Nat) →
    (start : LineStart) → (line : List Char) → Prop
  | last {place : LineStart} {line : List Char} (unbroken : '\n' ∉ line) :
      HasLine place line 0 place line
  | first {place : LineStart} {line rest : List Char} (unbroken : '\n' ∉ line) :
      HasLine place (line ++ '\n' :: rest) 0 place line
  | later {place start : LineStart} {first rest line : List Char} {number : Nat}
      (unbroken : '\n' ∉ first) (more : HasLine (place.after first) rest number start line) :
      HasLine place (first ++ '\n' :: rest) (number + 1) start line

namespace HasLine

variable {place start other : LineStart} {cs line text : List Char} {number offset : Nat}

/-- A line stands in the index and among what the line feeds separate. -/
theorem getElem?_eq (h : place.HasLine cs number start line) :
    (place :: place.scan cs)[number]? = some start ∧
      (cs.splitOn '\n')[number]? = some line := by
  induction h with
  | last hline =>
      rw [List.splitOn_eq_singleton hline]
      exact ⟨rfl, rfl⟩
  | first hline =>
      rw [List.splitOn_append_cons_self_of_not_mem hline]
      exact ⟨rfl, rfl⟩
  | later hfirst _ ih =>
      rw [scan_append_feed _ hfirst, List.splitOn_append_cons_self_of_not_mem hfirst]
      exact ih

/-- A line of one number begins in one place and says one thing. -/
theorem unique (h : place.HasLine cs number start line)
    (hother : place.HasLine cs number other text) : start = other ∧ line = text :=
  ⟨Option.some.inj (h.getElem?_eq.1.symm.trans hother.getElem?_eq.1),
    Option.some.inj (h.getElem?_eq.2.symm.trans hother.getElem?_eq.2)⟩

/-- A line lies in the text. -/
theorem bounds (h : place.HasLine cs number start line) :
    place.offset ≤ start.offset ∧ start.offset + line.length ≤ place.offset + cs.length := by
  induction h with
  | last => omega
  | first => simp
  | later _ _ ih =>
      simp only [after, List.length_append, List.length_cons] at ih ⊢
      omega

/-- A line is what stands from its beginning up to a line feed or the end of the text. -/
theorem takeWhile_drop (h : place.HasLine cs number start line) :
    (cs.drop (start.offset - place.offset)).takeWhile (· != '\n') = line := by
  have hall : ∀ {line : List Char}, '\n' ∉ line → ∀ c ∈ line, (c != '\n') = true := by
    rintro line hline c hc
    simpa using fun heq : c = '\n' => hline (heq ▸ hc)
  induction h with
  | last hline =>
      rw [Nat.sub_self, List.drop_zero, List.takeWhile_eq_self_iff.mpr (hall hline)]
  | first hline =>
      rw [Nat.sub_self, List.drop_zero, List.takeWhile_append_of_pos (hall hline),
        List.takeWhile_cons_of_neg (by simp), List.append_nil]
  | @later place start first rest line number _ hmore ih =>
      have hle := hmore.bounds.1
      have hdrop : start.offset - place.offset =
          (first ++ ['\n']).length + (start.offset - (place.after first).offset) := by
        simp only [after, List.length_append, List.length_singleton] at hle ⊢
        omega
      rw [hdrop, List.append_cons first '\n' rest, ← List.drop_drop, List.drop_left]
      exact ih

/-- An offset in a line or right behind it is looked up as lying in that line. -/
theorem lineHolding_eq (h : place.HasLine cs number start line) (hle : start.offset ≤ offset)
    (hstop : offset ≤ start.offset + line.length) (count : Nat) :
    Source.lineHolding offset count place (place.scan cs) = (count + number, start) := by
  induction h generalizing count with
  | last hline => rw [scan_of_not_mem _ hline]; rfl
  | @first place line rest hline =>
      have hbefore : ¬(place.after line).offset ≤ offset := by
        simp only [after]
        omega
      rw [scan_append_feed _ hline, Source.lineHolding, if_neg hbefore]
      rfl
  | later hfirst hmore ih =>
      have hreached := Nat.le_trans hmore.bounds.1 hle
      rw [scan_append_feed _ hfirst, Source.lineHolding, if_pos hreached, ih hle hstop,
        Nat.add_right_comm, Nat.add_assoc]

end HasLine

/-- Every line that the line feeds separate is found. -/
theorem exists_hasLine (place : LineStart) (cs : List Char) {number : Nat}
    (hnumber : number < (cs.splitOn '\n').length) :
    ∃ start line, place.HasLine cs number start line := by
  induction cs using Text.lines_induction generalizing place number with
  | last line hline =>
      rw [List.splitOn_eq_singleton hline, List.length_singleton, Nat.lt_one_iff] at hnumber
      exact hnumber ▸ ⟨place, line, .last hline⟩
  | more line rest hline ih =>
      rw [List.splitOn_append_cons_self_of_not_mem hline, List.length_cons] at hnumber
      cases number with
      | zero => exact ⟨place, line, .first hline⟩
      | succ number =>
          obtain ⟨start, text, hmore⟩ := ih (place.after line) (Nat.lt_of_succ_lt_succ hnumber)
          exact ⟨start, text, .later hline hmore⟩

/-- Every offset of the text lies in a line or right behind it. -/
theorem exists_hasLine_around (place : LineStart) (cs : List Char) {offset : Nat}
    (hle : place.offset ≤ offset) (hstop : offset ≤ place.offset + cs.length) :
    ∃ number start line, place.HasLine cs number start line ∧ start.offset ≤ offset ∧
      offset ≤ start.offset + line.length := by
  induction cs using Text.lines_induction generalizing place with
  | last line hline => exact ⟨0, place, line, .last hline, hle, hstop⟩
  | more line rest hline ih =>
      rw [List.length_append, List.length_cons] at hstop
      by_cases hhere : offset ≤ place.offset + line.length
      · exact ⟨0, place, line, .first hline, hle, hhere⟩
      · obtain ⟨number, start, text, hmore, hbounds⟩ := ih (place.after line)
          (by simp only [after]; omega) (by simp only [after]; omega)
        exact ⟨number + 1, start, text, .later hline hmore, hbounds⟩

/-- There are as many lines as the line feeds separate. -/
theorem length_scan (place : LineStart) (cs : List Char) :
    (place.scan cs).length + 1 = (cs.splitOn '\n').length := by
  induction cs using Text.lines_induction generalizing place with
  | last line hline => rw [scan_of_not_mem _ hline, List.splitOn_eq_singleton hline]; rfl
  | more line rest hline ih =>
      rw [scan_append_feed _ hline, List.splitOn_append_cons_self_of_not_mem hline,
        List.length_cons, List.length_cons, ih]

end LineStart

namespace Source

variable {source : Source} {start other : LineStart} {line text : List Char}
  {number column offset : Nat}

/-- Whether a line of the source, with its number from zero on, begins at `start` and says
`line`. -/
def HasLine (source : Source) (number : Nat) (start : LineStart) (line : List Char) : Prop :=
  LineStart.first.HasLine source.chars number start line

/-- Whether a line has a column: one for each of its characters and one behind them. -/
def HasColumn (source : Source) (number column : Nat) : Prop :=
  ∃ line, 1 ≤ number ∧ source.lineText? number = some line ∧
    1 ≤ column ∧ column ≤ line.length + 1

theorem lineCount_eq (source : Source) :
    source.lineCount = (source.chars.splitOn '\n').length := by
  rw [lineCount, source.laterLines_eq]
  exact LineStart.length_scan LineStart.first source.chars

/-- The text of a line from where the line begins. -/
theorem lineText?_succ (source : Source) (number : Nat) :
    source.lineText? (number + 1 : Nat) = source.lineStarts[number]?.map fun start =>
      (source.slice start.offset source.length).takeWhile (· != '\n') := by
  have hplace : ((number + 1 : Nat) : Int) - 1 = number := by omega
  rw [lineText?, hplace, Position.item?_natCast]

namespace HasLine

variable (h : source.HasLine number start line)

include h

theorem lineStarts_eq : source.lineStarts[number]? = some start := by
  rw [lineStarts, source.laterLines_eq]
  exact h.getElem?_eq.1

theorem le_length : start.offset + line.length ≤ source.length := by
  have hbounds := LineStart.HasLine.bounds h
  rw [chars, LineStart.first, Nat.zero_add] at hbounds
  exact hbounds.2

theorem lineText?_eq : source.lineText? (number + 1 : Nat) = some line := by
  have htext : (source.slice start.offset source.length).takeWhile (· != '\n') = line := by
    rw [slice_eq, length, ← Array.length_toList, ← chars, List.take_length]
    exact LineStart.HasLine.takeWhile_drop h
  rw [lineText?_succ, h.lineStarts_eq, Option.map_some, htext]

theorem offsetOf?_eq (hcolumn : column ≤ line.length) :
    source.offsetOf? (number + 1 : Nat) (column + 1 : Nat) =
      some ((start.offset + column : Nat) : Int) := by
  have hplace : ((number + 1 : Nat) - 1 : Int).toNat = number := by omega
  have hoffset : min (start.offset + (column + 1 : Nat) - 1 : Int) source.length =
      (start.offset + column : Nat) := by
    have := h.le_length
    omega
  rw [offsetOf?, if_neg (by omega), hplace, h.lineStarts_eq, Option.map_some, hoffset]

theorem lineOf_eq (hcolumn : column ≤ line.length) :
    source.lineOf (start.offset + column) = (number + 1, start) := by
  rw [lineOf, source.laterLines_eq, Nat.add_comm number]
  exact LineStart.HasLine.lineHolding_eq h (Nat.le_add_right ..) (Nat.add_le_add_left hcolumn _) 1

theorem lineAndColumn_eq (hcolumn : column ≤ line.length) :
    source.lineAndColumn (start.offset + column : Nat) = (number + 1, column + 1) := by
  have hclamp : source.clamp (start.offset + column : Nat) = start.offset + column := by
    have := h.le_length
    rw [clamp, Int.toNat_natCast]
    omega
  simp only [lineAndColumn, hclamp, h.lineOf_eq hcolumn, Nat.add_sub_cancel_left]

end HasLine

/-- Every offset up to the end of the text is a column of a line. -/
theorem exists_column (source : Source) (hoffset : offset ≤ source.length) :
    ∃ number start line column, source.HasLine number start line ∧ column ≤ line.length ∧
      offset = start.offset + column := by
  have hstop : offset ≤ LineStart.first.offset + source.chars.length := by
    rwa [LineStart.first, Nat.zero_add]
  obtain ⟨number, start, line, hline, hle, hlast⟩ :=
    LineStart.exists_hasLine_around LineStart.first source.chars (Nat.zero_le offset) hstop
  exact ⟨number, start, line, offset - start.offset, hline, by omega, by omega⟩

/-- A column of a line is one of a line that the line feeds separate. -/
theorem HasColumn.exists_hasLine (h : source.HasColumn number column) :
    ∃ place start line before, source.HasLine place start line ∧ before ≤ line.length ∧
      number = place + 1 ∧ column = before + 1 := by
  obtain ⟨line, hnumber, htext, hcolumn, hlength⟩ := h
  obtain ⟨place, rfl⟩ := Nat.exists_eq_add_of_le' hnumber
  obtain ⟨before, rfl⟩ := Nat.exists_eq_add_of_le' hcolumn
  have hplace : place < (source.chars.splitOn '\n').length := by
    rw [lineText?_succ, Option.map_eq_some_iff] at htext
    obtain ⟨start, hstart, -⟩ := htext
    rw [← lineCount_eq]
    exact (List.getElem?_eq_some_iff.mp hstart).1
  obtain ⟨start, text, hline⟩ := LineStart.exists_hasLine LineStart.first source.chars hplace
  obtain rfl : text = line := Option.some.inj ((HasLine.lineText?_eq hline).symm.trans htext)
  exact ⟨place, start, text, before, hline, Nat.le_of_succ_le_succ hlength, rfl, rfl⟩

/-- What the index says of the lines is what the line feeds separate. -/
theorem lineTexts_eq (source : Source) :
    (List.range source.lineCount).map (fun number : Nat => source.lineText? (number + 1)) =
      (source.chars.splitOn '\n').map some := by
  refine List.ext_getElem (by simp [lineCount_eq]) fun place hplace _ => ?_
  rw [List.length_map, List.length_range, lineCount_eq] at hplace
  obtain ⟨start, line, hline⟩ := LineStart.exists_hasLine LineStart.first source.chars hplace
  have htext := HasLine.lineText?_eq hline
  have hsplit := (List.getElem?_eq_some_iff.mp hline.getElem?_eq.2).2
  rw [List.getElem_map, List.getElem_map, List.getElem_range, hsplit]
  exact htext

/-- Lines and columns order the offsets of a text as the text does. -/
theorem strictMonoOn_lineAndColumn (source : Source) :
    StrictMonoOn (fun offset : Nat => toLex (source.lineAndColumn offset))
      (Set.Iic source.length) := by
  intro first hfirst second hsecond hlt
  obtain ⟨number, start, line, column, hline, hcolumn, rfl⟩ := source.exists_column hfirst
  obtain ⟨other, place, text, behind, htext, hbehind, rfl⟩ := source.exists_column hsecond
  have hnumber : number ≤ other := by
    have hcount := source.line_eq hfirst
    have hmore := source.line_eq hsecond
    rw [hline.lineAndColumn_eq hcolumn] at hcount
    rw [htext.lineAndColumn_eq hbehind] at hmore
    have hfeeds := ((List.take_prefix_take_left (l := source.chars)
      (Nat.le_of_lt hlt)).sublist).count_le '\n'
    simp only at hcount hmore
    omega
  simp only [hline.lineAndColumn_eq hcolumn, htext.lineAndColumn_eq hbehind,
    Prod.Lex.toLex_lt_toLex]
  rcases Nat.lt_or_eq_of_le hnumber with hless | rfl
  · exact .inl (Nat.succ_lt_succ hless)
  · obtain ⟨rfl, rfl⟩ := LineStart.HasLine.unique hline htext
    exact .inr ⟨rfl, by omega⟩

end Source

/-- Offsets and the columns of lines are two forms of one thing: the offsets of a text and its end
rise with their lines and columns, each gives a column that gives it back, each column gives an
offset that gives it back, and the lines are the text between the line feeds. -/
theorem line_index_is_bijective (source : Source) :
    StrictMonoOn (fun offset : Nat => toLex (source.lineAndColumn offset))
        (Set.Iic source.length) ∧
      (∀ offset : Nat, offset ≤ source.length →
        source.HasColumn (source.lineAndColumn offset).1 (source.lineAndColumn offset).2 ∧
          source.offsetOf? (source.lineAndColumn offset).1 (source.lineAndColumn offset).2 =
            some (offset : Int)) ∧
      (∀ number column : Nat, source.HasColumn number column →
        ∃ offset : Nat, offset ≤ source.length ∧
          source.offsetOf? number column = some (offset : Int) ∧
          source.lineAndColumn offset = (number, column)) ∧
      ∃ lines,
        (List.range source.lineCount).map (fun number : Nat => source.lineText? (number + 1)) =
            lines.map some ∧
          ['\n'].intercalate lines = source.chars := by
  refine ⟨source.strictMonoOn_lineAndColumn, fun offset hoffset => ?_,
    fun number column hcolumn => ?_, _, source.lineTexts_eq, List.intercalate_splitOn '\n'⟩
  · obtain ⟨number, start, line, column, hline, hcolumn, rfl⟩ := source.exists_column hoffset
    rw [hline.lineAndColumn_eq hcolumn]
    exact ⟨⟨line, Nat.le_add_left .., hline.lineText?_eq, Nat.le_add_left ..,
      Nat.succ_le_succ hcolumn⟩, hline.offsetOf?_eq hcolumn⟩
  · obtain ⟨place, start, line, before, hline, hbefore, rfl, rfl⟩ := hcolumn.exists_hasLine
    exact ⟨start.offset + before,
      Nat.le_trans (Nat.add_le_add_left hbefore _) hline.le_length,
      hline.offsetOf?_eq hbefore, hline.lineAndColumn_eq hbefore⟩

end CartLua
