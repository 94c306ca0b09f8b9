import CartLua.Position

/-!
# Logs ordered by offset

While a text is matched, findings are recorded at their offsets, and when the
matcher goes back every finding at or after the offset it returns to is dropped.
Inner findings are complete before the outer ones that begin earlier, so entries
arrive in any order; the log keeps them sorted, equal offsets in order of arrival.
-/

namespace CartLua

class Positioned (α : Type) where
  offset : α → Int

/-- A log of entries, held with the last entry first. -/
structure OffsetLog (α : Type) where
  lastFirst : List α
  deriving DecidableEq, Repr

namespace OffsetLog

variable {α : Type} [Positioned α]

def empty : OffsetLog α := ⟨[]⟩

def toList (log : OffsetLog α) : List α := log.lastFirst.reverse

def size (log : OffsetLog α) : Nat := log.lastFirst.length

/-- An entry put before the first one that does not lie behind it. -/
def insertLast (entry : α) : List α → List α
  | [] => [entry]
  | last :: rest =>
      if Positioned.offset entry < Positioned.offset last then last :: insertLast entry rest
      else entry :: last :: rest

/-- Add an entry after all entries that do not lie behind it. -/
def record (log : OffsetLog α) (entry : α) : OffsetLog α :=
  ⟨insertLast entry log.lastFirst⟩

/-- Drop every entry at or after an offset. -/
def trim (log : OffsetLog α) (offset : Int) : OffsetLog α :=
  ⟨log.lastFirst.dropWhile fun entry => offset ≤ Positioned.offset entry⟩

def between (log : OffsetLog α) (start stop : Int) : List α :=
  (log.toList.dropWhile fun entry => Positioned.offset entry < start).takeWhile
    fun entry => Positioned.offset entry < stop

/-- An entry by its position; negative positions count from the end. -/
def get? (log : OffsetLog α) (index : Int) : Option α := Position.item? log.toList index

omit [Positioned α] in
@[simp]
theorem toList_empty : (empty : OffsetLog α).toList = [] := rfl

theorem insertLast_perm (entry : α) (entries : List α) :
    (insertLast entry entries).Perm (entry :: entries) := by
  induction entries with
  | nil => exact List.Perm.refl _
  | cons last rest ih =>
      rw [insertLast]
      split
      · exact (ih.cons last).trans (List.Perm.swap entry last rest)
      · exact List.Perm.refl _

theorem toList_record_perm (log : OffsetLog α) (entry : α) :
    (log.record entry).toList.Perm (entry :: log.toList) :=
  (List.reverse_perm _).trans
    ((insertLast_perm entry log.lastFirst).trans
      ((List.reverse_perm log.lastFirst).symm.cons entry))

/-- Trimming leaves the beginning of the log. -/
theorem trim_suffix (log : OffsetLog α) (offset : Int) :
    (log.trim offset).lastFirst <:+ log.lastFirst :=
  List.dropWhile_suffix _

end OffsetLog

end CartLua
