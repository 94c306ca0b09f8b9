import CartLua.Consultation
import CartLua.Proofs.Source.LineIndex

/-!
# Byte offsets

The number of bytes before an offset is the size of the encoded text up to there, and nothing else
about a source enters into it.  Three ways lead to it: an offset of a text of one-byte characters is
its own byte offset, the index of the lines knows the bytes before each line, and a source that is
consulted counts them line by line when it first has to.  Neither the way nor the questions asked
before make a difference.
-/

namespace CartLua

namespace Text

theorem byteCount_cons (c : Char) (cs : List Char) :
    byteCount (c :: cs) = c.utf8Size + byteCount cs := rfl

theorem byteCount_append (as bs : List Char) :
    byteCount (as ++ bs) = byteCount as + byteCount bs := by
  induction as with
  | nil => simp [byteCount]
  | cons c as ih => rw [List.cons_append, byteCount_cons, byteCount_cons, ih, Nat.add_assoc]

/-- The bytes that are counted are those of the encoded text. -/
theorem byteCount_eq_size (cs : List Char) : byteCount cs = cs.utf8Encode.size := by
  induction cs with
  | nil => simp [byteCount]
  | cons c cs ih =>
      rw [byteCount_cons, ih, List.utf8Encode_cons, ByteArray.size_append,
        List.utf8Encode_singleton, List.size_toByteArray, String.length_utf8EncodeChar]

/-- Characters of ASCII take one byte each. -/
theorem byteCount_of_ascii {cs : List Char} (hascii : ∀ c ∈ cs, c.toNat < 0x80) :
    byteCount cs = cs.length := by
  induction cs with
  | nil => rfl
  | cons c cs ih =>
      obtain ⟨hc, hcs⟩ := List.forall_mem_cons.mp hascii
      have hone : c.utf8Size = 1 := by
        rw [Char.utf8Size_eq_one_iff, UInt32.le_iff_toNat_le]
        exact Nat.le_of_lt_succ hc
      rw [byteCount_cons, hone, ih hcs, List.length_cons, Nat.add_comm]

end Text

namespace LineStart

variable {place start : LineStart}

/-- The lines of a text begin one behind the other. -/
theorem pairwise_scan (place : LineStart) (cs : List Char) :
    (place :: place.scan cs).Pairwise fun earlier later => earlier.offset ≤ later.offset := by
  induction cs generalizing place with
  | nil => exact List.pairwise_singleton _ _
  | cons c cs ih =>
      have hlater := ih ⟨place.offset + 1, place.byteOffset + c.utf8Size⟩
      obtain ⟨hbehind, hscan⟩ := List.pairwise_cons.mp hlater
      rw [scan]
      split
      · refine List.pairwise_cons.mpr ⟨fun later hmem => ?_, hlater⟩
        rcases List.mem_cons.mp hmem with rfl | hmem
        · exact Nat.le_succ _
        · exact Nat.le_of_succ_le (hbehind later hmem)
      · exact List.pairwise_cons.mpr
          ⟨fun later hmem => Nat.le_of_succ_le (hbehind later hmem), hscan⟩

/-- The lines that are found begin behind as many bytes as there are before them. -/
theorem byteOffset_of_mem_scan {before cs : List Char} (hoffset : place.offset = before.length)
    (hbytes : place.byteOffset = Text.byteCount before) (hmem : start ∈ place :: place.scan cs) :
    start.byteOffset = Text.byteCount ((before ++ cs).take start.offset) := by
  -- The scan has come to `place`, with `before` behind it.
  induction cs generalizing place before with
  | nil =>
      obtain rfl : start = place := by simpa [scan] using hmem
      rw [hbytes, hoffset, List.append_nil, List.take_length]
  | cons c cs ih =>
      have hnext : (⟨place.offset + 1, place.byteOffset + c.utf8Size⟩ : LineStart).byteOffset =
          Text.byteCount (before ++ [c]) := by
        rw [Text.byteCount_append, ← hbytes]
        rfl
      rcases List.mem_cons.mp hmem with rfl | hmem
      · rw [hbytes, hoffset, List.take_left]
      · rw [List.append_cons]
        refine ih (by simp [hoffset]) hnext ?_
        rw [scan] at hmem
        split at hmem
        · exact hmem
        · exact List.mem_cons_of_mem _ hmem

end LineStart

namespace Source

variable {start : LineStart} {offset : Nat}

/-- The number of bytes before an offset of the text. -/
def bytesBefore (source : Source) (offset : Nat) : Nat :=
  Text.byteCount (source.chars.take offset)

/-- What lies between two offsets adds its bytes to those before the first one. -/
theorem bytesBefore_add_slice (source : Source) {first second : Nat} (hle : first ≤ second) :
    source.bytesBefore first + Text.byteCount (source.slice first second) =
      source.bytesBefore second := by
  have hsplit : source.chars.take second =
      source.chars.take first ++ source.slice first second := by
    have htake := (List.take_append_drop first (source.chars.take second)).symm
    rwa [List.take_take, Nat.min_eq_left hle, ← slice_eq] at htake
  rw [bytesBefore, bytesBefore, hsplit, Text.byteCount_append]

/-- In a text of one-byte characters an offset is its own byte offset. -/
theorem bytesBefore_of_ascii {source : Source} (hascii : source.ascii = true)
    (hoffset : offset ≤ source.length) : source.bytesBefore offset = offset := by
  rw [source.ascii_eq, List.all_eq_true] at hascii
  have hlength : (source.chars.take offset).length = offset := by
    rw [List.length_take, chars, Array.length_toList]
    exact Nat.min_eq_left hoffset
  rw [bytesBefore, Text.byteCount_of_ascii, hlength]
  intro c hc
  simpa using hascii c (List.mem_of_mem_take hc)

/-- The index knows the bytes before each line. -/
theorem byteOffset_of_mem_lineStarts {source : Source} (hstart : start ∈ source.lineStarts) :
    start.byteOffset = source.bytesBefore start.offset := by
  have hnone : LineStart.first.offset = ([] : List Char).length := rfl
  rw [lineStarts, source.laterLines_eq] at hstart
  exact LineStart.byteOffset_of_mem_scan hnone rfl hstart

/-- Counting line by line finds the bytes before each line. -/
theorem lineBytesFrom_eq (source : Source) {later : List LineStart}
    (hlater : (start :: later).Pairwise fun earlier later => earlier.offset ≤ later.offset) :
    source.lineBytesFrom (source.bytesBefore start.offset) start.offset later =
      (start :: later).map fun line => source.bytesBefore line.offset := by
  induction later generalizing start with
  | nil => rfl
  | cons next later ih =>
      obtain ⟨hbehind, hrest⟩ := List.pairwise_cons.mp hlater
      rw [lineBytesFrom, bytesBefore_add_slice source (hbehind next List.mem_cons_self), ih hrest]
      rfl

theorem lineBytes_eq (source : Source) :
    source.lineBytes = source.lineStarts.map fun line => source.bytesBefore line.offset := by
  have hlines := LineStart.pairwise_scan LineStart.first source.chars
  rw [chars, ← source.laterLines_eq] at hlines
  exact source.lineBytesFrom_eq hlines

/-- The line of an offset is in the index and begins no later. -/
theorem exists_lineOf (source : Source) (hoffset : offset ≤ source.length) :
    ∃ number start, source.lineOf offset = (number + 1, start) ∧
      source.lineStarts[number]? = some start ∧ start.offset ≤ offset := by
  obtain ⟨number, start, line, column, hline, hcolumn, rfl⟩ := source.exists_column hoffset
  exact ⟨number, start, hline.lineOf_eq hcolumn, hline.lineStarts_eq, Nat.le_add_right ..⟩

theorem clamp_le (source : Source) (offset : Int) : source.clamp offset ≤ source.length :=
  Nat.min_le_right ..

/-- The byte offset is the number of bytes before the nearest position of the text. -/
theorem byteOffset_eq (source : Source) (offset : Int) :
    source.byteOffset offset = source.bytesBefore (source.clamp offset) := by
  rw [byteOffset]
  split
  · rename_i hascii
    exact (bytesBefore_of_ascii hascii (source.clamp_le offset)).symm
  · obtain ⟨number, start, hline, hstart, hle⟩ := source.exists_lineOf (source.clamp_le offset)
    have hbytes := byteOffset_of_mem_lineStarts (List.mem_of_getElem? hstart)
    rw [hline, ← source.bytesBefore_add_slice hle, ← hbytes]
    rfl

end Source

namespace Consultation

variable {c : Consultation} {source : Source}

/-- Whether a consultation is about a source, and has counted the bytes before its lines rightly if
at all. -/
structure About (source : Source) (c : Consultation) : Prop where
  source_eq : c.source = source
  lineBytes_eq : ∀ counted, c.lineBytes = some counted → counted = source.lineBytes

theorem about_ofSource (source : Source) : (ofSource source).About source :=
  ⟨rfl, fun _ hnone => by cases hnone⟩

/-- A consultation answers as its source does, and stays about it. -/
theorem About.byteOffset_eq (h : c.About source) (offset : Int) :
    (c.byteOffset offset).1 = some (source.byteOffset offset) ∧
      (c.byteOffset offset).2.About source := by
  obtain ⟨rfl, hcounted⟩ := h
  have hlines : c.lineBytes.getD c.source.lineBytes = c.source.lineBytes := by
    cases hlineBytes : c.lineBytes with
    | none => rfl
    | some counted => exact hcounted counted hlineBytes
  rw [c.source.byteOffset_eq]
  simp only [byteOffset]
  split
  · rename_i hascii
    exact ⟨by rw [Source.bytesBefore_of_ascii hascii (c.source.clamp_le offset)], rfl, hcounted⟩
  · obtain ⟨number, start, hline, hstart, hle⟩ :=
      c.source.exists_lineOf (c.source.clamp_le offset)
    have hbytes : c.source.lineBytes[number]? = some (c.source.bytesBefore start.offset) := by
      rw [Source.lineBytes_eq, List.getElem?_map, hstart, Option.map_some]
    rw [hlines, hline]
    refine ⟨?_, rfl, fun counted hsome => (Option.some.inj hsome).symm⟩
    simp only [Nat.add_sub_cancel, hbytes, Option.map_some, c.source.bytesBefore_add_slice hle]

theorem About.location_eq (h : c.About source) (offset : Int) :
    (c.location offset).1 = some (source.location offset) ∧
      (c.location offset).2.About source := by
  obtain ⟨hbytes, habout⟩ := h.byteOffset_eq offset
  refine ⟨?_, habout⟩
  simp only [location, hbytes, habout.source_eq, h.source_eq, Option.map_some, Source.location]

/-- No question changes what a consultation is about. -/
theorem About.after (h : c.About source) (query : PlaceQuery) : (c.after query).About source := by
  cases query with
  | byteOffset offset => exact (h.byteOffset_eq offset).2
  | location offset => exact (h.location_eq offset).2

theorem About.afterAll (h : c.About source) (queries : List PlaceQuery) :
    (c.afterAll queries).About source := by
  induction queries generalizing c with
  | nil => exact h
  | cons query queries ih => exact ih (h.after query)

end Consultation

/-- The byte offset of any position is the size of the encoded text before the nearest position in
the text.  A source that has been asked any questions gives it for every further one, alone and in a
location, and so does one that has not been asked anything. -/
theorem byte_offsets_are_exact (source : Source) (earlier : List PlaceQuery) (offset : Int) :
    let place := (max 0 (min offset source.length)).toNat
    let bytes := (source.chars.take place).utf8Encode.size
    let consulted := (Consultation.ofSource source).afterAll earlier
    source.byteOffset offset = bytes ∧ (source.location offset).byteOffset = some (bytes : Int) ∧
      (consulted.byteOffset offset).1 = some bytes ∧
      (consulted.location offset).1 = some (source.location offset) := by
  intro place bytes consulted
  have hplace : source.clamp offset = place := by
    simp only [Source.clamp, place]
    omega
  have hbytes : source.byteOffset offset = bytes := by
    rw [source.byteOffset_eq, hplace, Source.bytesBefore, Text.byteCount_eq_size]
  have habout : consulted.About source := (Consultation.about_ofSource source).afterAll earlier
  refine ⟨hbytes, ?_, ?_, (habout.location_eq offset).1⟩
  · rw [Source.location]
    exact congrArg (fun bytes : Nat => some (bytes : Int)) hbytes
  · rw [(habout.byteOffset_eq offset).1, hbytes]

end CartLua
