import CartLua.Grammar.Terminal

/-!
# Terminals on what is left of a text

A terminal looks only at what follows its offset, and what it takes is there to be
taken.  The second holds of a literal in any case only if no other text of another
length has the same lower-case form.
-/

namespace CartLua

namespace Text

/-- What is left of a text from an offset on. -/
def rest (text : Array Char) (offset : Nat) : List Char := text.toList.drop offset

variable {text : Array Char} {offset : Nat}

@[simp]
theorem length_rest : (rest text offset).length = text.size - offset := by
  simp [rest]

theorem getElem?_rest (text : Array Char) (offset k : Nat) :
    (rest text offset).toArray[k]? = text[offset + k]? := by
  simp [rest, Array.getElem?_toList]

theorem rest_add (count : Nat) : rest text (offset + count) = (rest text offset).drop count := by
  simp [rest, List.drop_drop]

theorem startsAt_rest (hoffset : offset ≤ text.size) (cs : List Char) (k : Nat) :
    startsAt (rest text offset).toArray cs k = startsAt text cs (offset + k) := by
  induction cs generalizing k with
  | nil =>
      simp only [startsAt, List.size_toArray, length_rest, decide_eq_decide]
      omega
  | cons c cs ih => rw [startsAt, startsAt, getElem?_rest, ih, Nat.add_assoc]

theorem runEndWithin_rest (p : Char → Bool) (steps k : Nat) :
    runEndWithin text p steps (offset + k) =
      offset + runEndWithin (rest text offset).toArray p steps k := by
  induction steps generalizing k with
  | zero => rfl
  | succ steps ih =>
      rw [runEndWithin, runEndWithin, getElem?_rest]
      cases text[offset + k]? with
      | none => rfl
      | some c =>
          dsimp only
          split
          · rw [Nat.add_assoc, ih]
          · rfl

theorem runEnd_rest (text : Array Char) (offset : Nat) (p : Char → Bool) (k : Nat) :
    runEnd text p (offset + k) = offset + runEnd (rest text offset).toArray p k := by
  have hsteps : text.size - (offset + k) = (rest text offset).toArray.size - k := by
    simp [Nat.sub_sub]
  rw [runEnd, runEnd, runEndWithin_rest, hsteps]

theorem findWithin_rest (hoffset : offset ≤ text.size) (needle : List Char) (steps k : Nat) :
    findWithin text needle steps (offset + k) =
      (findWithin (rest text offset).toArray needle steps k).map (offset + ·) := by
  induction steps generalizing k with
  | zero =>
      rw [findWithin, findWithin, startsAt_rest hoffset]
      split <;> rfl
  | succ steps ih =>
      rw [findWithin, findWithin, startsAt_rest hoffset]
      split
      · rfl
      · rw [Nat.add_assoc, ih]

theorem find?_rest (hoffset : offset ≤ text.size) (needle : List Char) (k : Nat) :
    find? text needle (offset + k) =
      (find? (rest text offset).toArray needle k).map (offset + ·) := by
  have hsteps : text.size - (offset + k) = (rest text offset).toArray.size - k := by
    simp [Nat.sub_sub]
  rw [find?, find?, findWithin_rest hoffset, hsteps]

theorem le_size_of_startsAt {cs : List Char} (h : startsAt text cs offset = true) :
    offset + cs.length ≤ text.size := by
  obtain ⟨hoffset, hprefix⟩ := startsAt_iff.mp h
  have hlength := hprefix.length_le
  simp only [List.length_drop, Array.length_toList] at hlength
  omega

theorem le_runEndWithin (p : Char → Bool) (steps offset : Nat) :
    offset ≤ runEndWithin text p steps offset := by
  induction steps generalizing offset with
  | zero => exact Nat.le_refl _
  | succ steps ih =>
      rw [runEndWithin]
      split
      · split
        · exact Nat.le_of_succ_le (ih (offset + 1))
        · exact Nat.le_refl _
      · exact Nat.le_refl _

theorem runEndWithin_le (text : Array Char) (p : Char → Bool) (steps offset : Nat) :
    runEndWithin text p steps offset ≤ offset + steps := by
  induction steps generalizing offset with
  | zero => exact Nat.le_refl _
  | succ steps ih =>
      rw [runEndWithin]
      split
      · split
        · have := ih (offset + 1)
          omega
        · omega
      · omega

/-- A run begins where it is looked for. -/
theorem le_runEnd (p : Char → Bool) : offset ≤ runEnd text p offset :=
  le_runEndWithin p _ offset

/-- A run that begins in the text ends in it. -/
theorem runEnd_le_size (p : Char → Bool) (hoffset : offset ≤ text.size) :
    runEnd text p offset ≤ text.size := by
  have := runEndWithin_le text p (text.size - offset) offset
  rw [runEnd]
  omega

theorem findWithin_spec {needle : List Char} {steps offset found : Nat}
    (h : findWithin text needle steps offset = some found) :
    offset ≤ found ∧ startsAt text needle found = true := by
  induction steps generalizing offset with
  | zero =>
      rw [findWithin] at h
      split at h
      · rename_i hstarts
        cases h
        exact ⟨Nat.le_refl _, hstarts⟩
      · cases h
  | succ steps ih =>
      rw [findWithin] at h
      split at h
      · rename_i hstarts
        cases h
        exact ⟨Nat.le_refl _, hstarts⟩
      · obtain ⟨hle, hstarts⟩ := ih h
        exact ⟨Nat.le_of_succ_le hle, hstarts⟩

/-- What is found lies at or after the place where the search begins, and is there. -/
theorem find?_spec {needle : List Char} {found : Nat} (h : find? text needle offset = some found) :
    offset ≤ found ∧ startsAt text needle found = true :=
  findWithin_spec h

/-- Only texts of two characters have the lower-case form of the mark of hexadecimal
numerals. -/
theorem length_of_lower_eq_hexMark {cs : List Char} (hcs : cs.length ≤ 2)
    (hlower : lower cs = ['0', 'x']) : cs.length = 2 := by
  match cs, hcs with
  | [], _ => simp [lower, CaseMap.lowerAfter] at hlower
  | [c], _ =>
      simp only [lower, CaseMap.lowerAfter, CaseMap.lowerWide] at hlower
      split at hlower
      · simp at hlower
      · split at hlower
        · simp at hlower
        · split at hlower <;> simp at hlower
  | [_, _], _ => rfl

end Text

namespace Terminal

/-- Whether the terminal takes no more than there is. -/
def Bounded : Terminal → Prop
  | literal cs true =>
      ∀ s : List Char, s.length ≤ cs.length → Text.lower s = Text.lower cs → s.length = cs.length
  | _ => True

/-- How a terminal ends depends on what follows its offset. -/
theorem scan_eq_scan_rest (t : Terminal) {text : Array Char} {offset : Nat}
    (hoffset : offset ≤ text.size) :
    t.scan text offset = t.scan (Text.rest text offset).toArray 0 := by
  have hget := Text.getElem?_rest text offset 0
  have hstarts := fun cs => Text.startsAt_rest hoffset cs 0
  have hsize : (Text.rest text offset).toArray.size = text.size - offset := by simp
  rw [Nat.add_zero] at hget
  simp only [Nat.add_zero] at hstarts
  cases t with
  | literal cs anyCase =>
      cases anyCase with
      | false => simp only [scan, hstarts]
      | true =>
          have hextract : (text.extract offset (offset + cs.length)).toList =
              ((Text.rest text offset).toArray.extract 0 (0 + cs.length)).toList := by
            simp [Text.rest]
          simp only [scan, hextract]
  | oneOf chars negated => simp only [scan, hget]
  | identifier =>
      have hrun := Text.runEnd_rest text offset isIdentifierPart 1
      simp only [scan, hget, hrun, Nat.zero_add, Nat.add_sub_cancel_left, Nat.sub_zero]
  | endOfInput =>
      have hend : text.size ≤ offset ↔ text.size - offset ≤ 0 := by omega
      simp only [scan, hsize, hend]
  | endOfLine orEnd =>
      have hend : text.size ≤ offset ↔ text.size - offset ≤ 0 := by omega
      simp only [scan, hsize, hstarts, hend]
  | longBracket =>
      have hrun := Text.runEnd_rest text offset (· == '=') 1
      simp only [scan, hstarts, scanLongBracket, hrun, Nat.zero_add]
      generalize Text.runEnd (Text.rest text offset).toArray (· == '=') 1 = cursor
      have hcursor : offset + cursor - offset - 1 = cursor - 0 - 1 := by omega
      rw [Text.startsAt_rest hoffset, Nat.add_assoc, Text.find?_rest hoffset, hcursor]
      cases Text.find? (Text.rest text offset).toArray (closingBracket (cursor - 0 - 1))
        (cursor + 1) with
      | none => rfl
      | some found =>
          have hcount : ∀ n, offset + found + n - offset = found + n - 0 := by omega
          simp only [Option.map_some, hcount]

/-- Only a long bracket can be left open. -/
theorem scan_ne_unclosed {t : Terminal} (ht : t ≠ .longBracket) (text : Array Char)
    (offset level : Nat) : t.scan text offset ≠ .unclosed level := by
  cases t with
  | longBracket => exact absurd rfl ht
  | literal cs anyCase => cases anyCase <;> rw [scan] <;> split <;> nofun
  | endOfInput => rw [scan]; split <;> nofun
  | oneOf chars negated => rw [scan]; grind
  | identifier => rw [scan]; grind
  | endOfLine orEnd => rw [scan]; grind

/-- What a terminal has seen where it takes some characters. -/
inductive Taken (text : Array Char) (offset : Nat) : Terminal → Nat → Prop
  | literal {cs : List Char} (starts : Text.startsAt text cs offset = true) :
      Taken text offset (literal cs false) cs.length
  | anyCase {cs : List Char}
      (lower : Text.lower (text.extract offset (offset + cs.length)).toList = Text.lower cs) :
      Taken text offset (literal cs true) cs.length
  | oneOf (chars : List Char) (negated : Bool) (left : offset < text.size) :
      Taken text offset (oneOf chars negated) 1
  | identifier {stop : Nat} (begins : offset < stop) (ends : stop ≤ text.size) :
      Taken text offset identifier (stop - offset)
  | lineFeed (orEnd : Bool) (starts : Text.startsAt text ['\n'] offset = true) :
      Taken text offset (endOfLine orEnd) 1
  | lineBreak (orEnd : Bool) (starts : Text.startsAt text ['\r', '\n'] offset = true) :
      Taken text offset (endOfLine orEnd) 2
  | longBracket {level found : Nat} (opens : Text.startsAt text ['['] offset = true)
      (behind : offset < found)
      (closes : Text.startsAt text (closingBracket level) found = true) :
      Taken text offset longBracket (found + (closingBracket level).length - offset)

theorem taken_longBracket {text : Array Char} {offset count : Nat}
    (htake : longBracket.scan text offset = .take count) : Taken text offset longBracket count := by
  rw [scan] at htake
  split at htake
  · rename_i hopens
    rw [scanLongBracket] at htake
    dsimp only at htake
    have hcursor : offset + 1 ≤ Text.runEnd text (· == '=') (offset + 1) := Text.le_runEnd _
    generalize Text.runEnd text (· == '=') (offset + 1) = cursor at htake hcursor
    split at htake
    · split at htake
      · rename_i found hfound
        cases htake
        have hspec := Text.find?_spec hfound
        exact .longBracket hopens (by omega) hspec.2
      · cases htake
    · cases htake
  · cases htake

theorem taken_of_scan {t : Terminal} {text : Array Char} {offset count : Nat}
    (htake : t.scan text offset = .take count) : Taken text offset t count := by
  cases t with
  | literal cs anyCase =>
      cases anyCase with
      | false =>
          rw [scan] at htake
          split at htake <;> cases htake
          rename_i hstarts
          exact .literal hstarts
      | true =>
          rw [scan] at htake
          split at htake <;> cases htake
          rename_i hlower
          exact .anyCase hlower
  | oneOf chars negated =>
      rw [scan] at htake
      split at htake
      · rename_i c hc
        split at htake <;> cases htake
        exact .oneOf chars negated (Array.getElem?_eq_some_iff.mp hc).1
      · cases htake
  | identifier =>
      rw [scan] at htake
      split at htake
      · rename_i c hc
        split at htake <;> cases htake
        exact .identifier (Text.le_runEnd _)
          (Text.runEnd_le_size _ (Array.getElem?_eq_some_iff.mp hc).1)
      · cases htake
  | endOfInput =>
      rw [scan] at htake
      split at htake <;> cases htake
  | endOfLine orEnd =>
      rw [scan] at htake
      split at htake
      · cases htake
      · split at htake
        · rename_i hstarts
          cases htake
          exact .lineFeed orEnd hstarts
        · split at htake <;> cases htake
          rename_i hstarts
          exact .lineBreak orEnd hstarts
  | longBracket => exact taken_longBracket htake

/-- What a terminal takes is in the text. -/
theorem scan_take_le {t : Terminal} (ht : t.Bounded) {text : Array Char} {offset count : Nat}
    (hoffset : offset ≤ text.size) (htake : t.scan text offset = .take count) :
    offset + count ≤ text.size := by
  cases taken_of_scan htake with
  | literal starts => exact Text.le_size_of_startsAt starts
  | anyCase lower =>
      have hlength := ht _ (by simp only [Array.length_toList, Array.size_extract]; omega) lower
      simp only [Array.length_toList, Array.size_extract] at hlength
      omega
  | oneOf chars negated left => exact left
  | identifier begins ends => omega
  | lineFeed orEnd starts => exact Text.le_size_of_startsAt starts
  | lineBreak orEnd starts => exact Text.le_size_of_startsAt starts
  | longBracket opens behind closes =>
      have := Text.le_size_of_startsAt closes
      omega

end Terminal

end CartLua
