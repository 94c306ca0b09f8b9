import Mathlib.Data.List.TakeWhile
import CartLua.Proofs.Occurrence.Leftovers

/-!
# What a log holds

A log is kept sorted while entries arrive out of order and its end is dropped over and over.  What
it holds in the end needs no sorting to be said: of all that arrived, whatever no later trim hit, by
offset and then by arrival.

A log may also hold its offsets in a list of their own, beside its entries, find places in it by
halving, and put in and take out at the same place of both lists.  Such a log holds the same entries
at every moment, and its two lists never come apart.
-/

namespace CartLua

variable {α : Type} [Positioned α]

/-- Whether entries are those that arrived, by offset, with equal offsets in order of arrival. -/
structure InStableOrder (entries arrived : List α) : Prop where
  ordered : entries.Pairwise fun a b => Positioned.offset a ≤ Positioned.offset b
  perm : entries.Perm arrived
  stable : ∀ offset, entries.filter (Positioned.offset · = offset) =
    arrived.filter (Positioned.offset · = offset)

/-- Entries in order are settled by what they are at each offset. -/
theorem InStableOrder.of_stable {entries arrived : List α}
    (ordered : entries.Pairwise fun a b => Positioned.offset a ≤ Positioned.offset b)
    (stable : ∀ offset, entries.filter (Positioned.offset · = offset) =
      arrived.filter (Positioned.offset · = offset)) : InStableOrder entries arrived := by
  classical
  refine ⟨ordered, List.perm_iff_count.mpr fun entry => ?_, stable⟩
  have hown : ∀ others : List α,
      (others.filter (Positioned.offset · = Positioned.offset entry)).count entry =
        others.count entry := fun others => List.count_filter (by simp)
  rw [← hown entries, stable, hown arrived]

/-- One change of a log. -/
inductive LogStep (α : Type)
  | record (entry : α)
  | trim (offset : Int)

namespace LogStep

/-- Whether a change drops the entries at an offset. -/
def hits (offset : Int) : LogStep α → Bool
  | .record _ => false
  | .trim start => start ≤ offset

/-- The entries recorded by changes and not hit by a later one, in order of arrival. -/
def surviving : List (LogStep α) → List α
  | [] => []
  | .record entry :: later =>
      if later.any (hits (Positioned.offset entry)) then surviving later
      else entry :: surviving later
  | .trim _ :: later => surviving later

end LogStep

namespace OffsetLog

variable {log : OffsetLog α}

/-- The log after one change. -/
def step (log : OffsetLog α) : LogStep α → OffsetLog α
  | .record entry => log.record entry
  | .trim offset => log.trim offset

/-- The log after changes. -/
def run (log : OffsetLog α) (steps : List (LogStep α)) : OffsetLog α := steps.foldl step log

theorem Ordered.step (h : log.Ordered) : (change : LogStep α) → (log.step change).Ordered
  | .record entry => h.record entry
  | .trim offset => h.trim offset

/-- Every log that changes lead to is in order. -/
theorem Ordered.run (h : log.Ordered) (steps : List (LogStep α)) : (log.run steps).Ordered := by
  induction steps generalizing log with
  | nil => exact h
  | cons change later ih => exact ih (h.step change)

/-- A recorded entry stands behind all that do not lie behind it and before all that do. -/
theorem insertLast_parts (entry : α) {entries : List α}
    (h : entries.Pairwise fun later earlier =>
      Positioned.offset earlier ≤ Positioned.offset later) :
    ∃ back front, entries = back ++ front ∧ insertLast entry entries = back ++ entry :: front ∧
      (∀ other ∈ back, Positioned.offset entry < Positioned.offset other) ∧
      ∀ other ∈ front, Positioned.offset other ≤ Positioned.offset entry := by
  induction entries with
  | nil => exact ⟨[], [], rfl, rfl, by simp, by simp⟩
  | cons last rest ih =>
      rw [List.pairwise_cons] at h
      rw [insertLast]
      by_cases hbehind : Positioned.offset entry < Positioned.offset last
      · obtain ⟨back, front, rfl, hinsert, hback, hfront⟩ := ih h.2
        rw [if_pos hbehind, hinsert]
        exact ⟨last :: back, front, rfl, rfl, List.forall_mem_cons.mpr ⟨hbehind, hback⟩, hfront⟩
      · have hlast := Int.not_lt.mp hbehind
        rw [if_neg hbehind]
        exact ⟨[], last :: rest, rfl, rfl, by simp, List.forall_mem_cons.mpr
          ⟨hlast, fun other hother => Int.le_trans (h.1 other hother) hlast⟩⟩

/-- Where a recorded entry stands. -/
theorem Ordered.record_parts (h : log.Ordered) (entry : α) :
    ∃ front back, log.toList = front ++ back ∧
      (log.record entry).toList = front ++ entry :: back ∧
      (∀ other ∈ front, Positioned.offset other ≤ Positioned.offset entry) ∧
      ∀ other ∈ back, Positioned.offset entry < Positioned.offset other := by
  obtain ⟨back, front, hentries, hinsert, hback, hfront⟩ := insertLast_parts entry h
  refine ⟨front.reverse, back.reverse, ?_, ?_, by simpa using hfront, by simpa using hback⟩
  · rw [toList, hentries, List.reverse_append]
  · rw [toList, OffsetLog.record, hinsert, List.reverse_append, List.reverse_cons,
      List.append_assoc, List.singleton_append]

/-- Trimming keeps what begins before the offset. -/
theorem Ordered.toList_trim (h : log.Ordered) (offset : Int) :
    (log.trim offset).toList = log.toList.filter (Positioned.offset · < offset) := by
  have hdropped : (log.lastFirst.takeWhile fun entry => offset ≤ Positioned.offset entry).filter
      (Positioned.offset · < offset) = [] := by
    refine List.filter_eq_nil_iff.mpr fun entry hentry => ?_
    have hle := List.all_eq_true.mp List.all_takeWhile entry hentry
    simpa using hle
  have hkept : (log.trim offset).lastFirst.filter (Positioned.offset · < offset) =
      (log.trim offset).lastFirst :=
    List.filter_eq_self.mpr fun entry hentry => by
      simpa using offset_lt_of_mem_dropWhile h entry hentry
  have hall : log.lastFirst.filter (Positioned.offset · < offset) =
      (log.trim offset).lastFirst := by
    rw [← hkept, OffsetLog.trim]
    conv_lhs => rw [← List.takeWhile_append_dropWhile
      (p := fun entry => offset ≤ Positioned.offset entry) (l := log.lastFirst)]
    rw [List.filter_append, hdropped, List.nil_append]
  rw [toList, toList, List.filter_reverse, hall]

/-- At one offset, recording adds an entry of that offset behind the others. -/
theorem Ordered.filter_record (h : log.Ordered) (entry : α) (offset : Int) :
    (log.record entry).toList.filter (Positioned.offset · = offset) =
      log.toList.filter (Positioned.offset · = offset) ++
        if Positioned.offset entry = offset then [entry] else [] := by
  obtain ⟨front, back, hlog, hrecord, -, hback⟩ := h.record_parts entry
  rw [hlog, hrecord, List.filter_append, List.filter_append]
  by_cases hhere : Positioned.offset entry = offset
  · have hnone : back.filter (Positioned.offset · = offset) = [] := by
      refine List.filter_eq_nil_iff.mpr fun other hother => ?_
      simpa using Int.ne_of_gt (hhere ▸ hback other hother)
    rw [List.filter_cons_of_pos (by simpa using hhere), hnone, if_pos hhere, List.append_nil]
  · rw [List.filter_cons_of_neg (by simpa using hhere), if_neg hhere, List.append_nil]

/-- At one offset, trimming drops all or nothing. -/
theorem Ordered.filter_trim (h : log.Ordered) (start offset : Int) :
    (log.trim start).toList.filter (Positioned.offset · = offset) =
      if start ≤ offset then [] else log.toList.filter (Positioned.offset · = offset) := by
  rw [h.toList_trim, List.filter_filter]
  split
  · refine List.filter_eq_nil_iff.mpr fun entry _ => ?_
    simp only [Bool.and_eq_true, decide_eq_true_eq]
    omega
  · refine List.filter_congr fun entry _ => ?_
    rw [Bool.eq_iff_iff]
    simp only [Bool.and_eq_true, decide_eq_true_eq]
    omega

/-- At one offset, changes leave what was there, unless one of them drops it, and then what they
record there. -/
theorem Ordered.filter_run (h : log.Ordered) (steps : List (LogStep α)) (offset : Int) :
    (log.run steps).toList.filter (Positioned.offset · = offset) =
      (if steps.any (LogStep.hits offset) then []
        else log.toList.filter (Positioned.offset · = offset)) ++
        (LogStep.surviving steps).filter (Positioned.offset · = offset) := by
  induction steps generalizing log with
  | nil => simp [OffsetLog.run, LogStep.surviving]
  | cons change later ih =>
      rw [OffsetLog.run, List.foldl_cons, ← OffsetLog.run, ih (h.step change), List.any_cons]
      cases change with
      | record entry =>
          rw [LogStep.hits, Bool.false_or, OffsetLog.step, LogStep.surviving, h.filter_record]
          by_cases hhere : Positioned.offset entry = offset
          · subst hhere
            split <;> simp
          · rw [if_neg hhere, List.append_nil, apply_ite
              (List.filter (fun other : α => decide (Positioned.offset other = offset))),
              List.filter_cons_of_neg (by simpa using hhere), ite_self]
      | trim start =>
          rw [LogStep.hits, OffsetLog.step, LogStep.surviving, h.filter_trim]
          by_cases hhit : start ≤ offset <;> simp [hhit]

/-- A log that changes lead to holds what survives them. -/
theorem inStableOrder_run (steps : List (LogStep α)) :
    InStableOrder ((empty : OffsetLog α).run steps).toList (LogStep.surviving steps) := by
  refine .of_stable (ordered_empty.run steps).pairwise_toList fun offset => ?_
  rw [ordered_empty.filter_run steps offset]
  simp

end OffsetLog

/-- How many offsets stand in front, when those that do come first and their number lies between
`low` and `high`: the range is halved until one number is left. -/
def bisect (inFront : Int → Bool) (offsets : List Int) (low high : Nat) : Nat :=
  if low < high then
    if offsets[(low + high) / 2]?.any inFront then
      bisect inFront offsets ((low + high) / 2 + 1) high
    else bisect inFront offsets low ((low + high) / 2)
  else low
termination_by high - low
decreasing_by all_goals omega

section

variable {inFront : Int → Bool} {offsets : List Int}

/-- The offset at a place stands in front as long as the place lies before the others. -/
theorem any_getElem?_iff_lt
    (h : offsets.Pairwise fun a b => inFront b = true → inFront a = true) (place : Nat) :
    offsets[place]?.any inFront = true ↔ place < (offsets.takeWhile inFront).length := by
  induction offsets generalizing place with
  | nil => simp
  | cons first rest ih =>
      rw [List.pairwise_cons] at h
      by_cases hfirst : inFront first = true
      · rw [List.takeWhile_cons_of_pos hfirst, List.length_cons]
        cases place with
        | zero => simpa using hfirst
        | succ place => simpa using ih h.2 place
      · rw [List.takeWhile_cons_of_neg hfirst]
        cases place with
        | zero => simpa using hfirst
        | succ place =>
            simp only [List.getElem?_cons_succ, Option.any_eq_true, List.length_nil,
              Nat.not_lt_zero, iff_false, not_exists, not_and]
            exact fun other hother hbefore =>
              hfirst (h.1 other (List.mem_of_getElem? hother) hbefore)

/-- Halving finds where the offsets in front end. -/
theorem bisect_eq (h : offsets.Pairwise fun a b => inFront b = true → inFront a = true)
    {low high : Nat} (hlow : low ≤ (offsets.takeWhile inFront).length)
    (hhigh : (offsets.takeWhile inFront).length ≤ high) :
    bisect inFront offsets low high = (offsets.takeWhile inFront).length := by
  fun_induction bisect inFront offsets low high with
  | case1 low high hlt hbefore ih =>
      exact ih ((any_getElem?_iff_lt h _).mp hbefore) hhigh
  | case2 low high hlt hbehind ih =>
      exact ih hlow (Nat.not_lt.mp fun hplace => hbehind ((any_getElem?_iff_lt h _).mpr hplace))
  | case3 low high hdone => omega

end

/-- A log that holds the offsets of its entries in a list of their own. -/
structure IndexedLog (α : Type) where
  entries : List α
  offsets : List Int

namespace IndexedLog

/-- The log without entries. -/
def empty : IndexedLog α := ⟨[], []⟩

/-- Add an entry after all entries that do not lie behind it. -/
def record (log : IndexedLog α) (entry : α) : IndexedLog α :=
  let index := bisect (· ≤ Positioned.offset entry) log.offsets 0 log.offsets.length
  ⟨log.entries.insertIdx index entry, log.offsets.insertIdx index (Positioned.offset entry)⟩

/-- Drop the last entry as long as it lies at or after an offset. -/
def trim (log : IndexedLog α) (offset : Int) : IndexedLog α :=
  if log.offsets.getLast?.any (offset ≤ ·) then
    trim ⟨log.entries.dropLast, log.offsets.dropLast⟩ offset
  else log
termination_by log.offsets.length
decreasing_by
  rename_i hlast
  have hlength : log.offsets.length ≠ 0 := by
    rintro hzero
    rw [List.length_eq_zero_iff.mp hzero] at hlast
    exact absurd hlast (by simp)
  simp only [List.length_dropLast]
  omega

/-- The entries from `start` up to but without `stop`. -/
def between (log : IndexedLog α) (start stop : Int) : List α :=
  let low := bisect (· < start) log.offsets 0 log.offsets.length
  let high := bisect (· < stop) log.offsets 0 log.offsets.length
  (log.entries.take high).drop low

/-- The log after one change. -/
def step (log : IndexedLog α) : LogStep α → IndexedLog α
  | .record entry => log.record entry
  | .trim offset => log.trim offset

/-- The log after changes. -/
def run (log : IndexedLog α) (steps : List (LogStep α)) : IndexedLog α := steps.foldl step log

end IndexedLog

namespace OffsetLog

variable {log : OffsetLog α}

/-- The same entries with their offsets beside them. -/
def indexed (log : OffsetLog α) : IndexedLog α := ⟨log.toList, log.toList.map Positioned.offset⟩

/-- Where the entries that begin before an offset end. -/
theorem Ordered.bisect_eq (h : log.Ordered) (stop : Int) :
    bisect (· < stop) log.indexed.offsets 0 log.indexed.offsets.length =
      (log.toList.takeWhile (Positioned.offset · < stop)).length := by
  have hpairwise : log.indexed.offsets.Pairwise fun a b =>
      decide (b < stop) = true → decide (a < stop) = true := by
    refine List.pairwise_map.mpr (h.pairwise_toList.imp fun {a b} hle => ?_)
    simpa using Int.lt_of_le_of_lt hle
  rw [CartLua.bisect_eq hpairwise (Nat.zero_le _) (List.takeWhile_sublist _).length_le, indexed,
    List.takeWhile_map, List.length_map]
  rfl

omit [Positioned α] in
theorem insertIdx_length_append (front back : List α) (entry : α) :
    (front ++ back).insertIdx front.length entry = front ++ entry :: back := by
  induction front with
  | nil => rfl
  | cons first front ih => exact congrArg (first :: ·) ih

/-- Both logs put an entry in the same place. -/
theorem Ordered.indexed_record (h : log.Ordered) (entry : α) :
    log.indexed.record entry = (log.record entry).indexed := by
  obtain ⟨front, back, hlog, hrecord, hfront, hback⟩ := h.record_parts entry
  have hend : back.takeWhile (Positioned.offset · < Positioned.offset entry + 1) = [] :=
    List.takeWhile_eq_nil_iff.mpr fun hlength => by
      have := hback _ (back.get_mem ⟨0, hlength⟩)
      simp only [decide_eq_true_eq]
      omega
  have hindex : bisect (· ≤ Positioned.offset entry) log.indexed.offsets 0
      log.indexed.offsets.length = front.length := by
    simp only [← Int.lt_add_one_iff]
    rw [h.bisect_eq, hlog, List.takeWhile_append_of_pos, hend, List.append_nil]
    simpa [Int.lt_add_one_iff] using hfront
  have hoffsets := insertIdx_length_append (front.map Positioned.offset)
    (back.map Positioned.offset) (Positioned.offset entry)
  rw [List.length_map] at hoffsets
  simp only [IndexedLog.record, hindex]
  simp only [indexed, hlog, hrecord, List.map_append, List.map_cons, hoffsets,
    insertIdx_length_append]

/-- Both logs drop the same entries. -/
theorem indexed_trim (log : OffsetLog α) (offset : Int) :
    log.indexed.trim offset = (log.trim offset).indexed := by
  obtain ⟨entries⟩ := log
  induction entries with
  | nil => rw [IndexedLog.trim, if_neg (by simp [indexed, toList])]; rfl
  | cons last rest ih =>
      rw [IndexedLog.trim]
      by_cases hhit : offset ≤ Positioned.offset last
      · have hpop : (⟨(indexed ⟨last :: rest⟩).entries.dropLast,
            (indexed ⟨last :: rest⟩).offsets.dropLast⟩ : IndexedLog α) = indexed ⟨rest⟩ := by
          simp [indexed, toList]
        rw [if_pos (by simpa [indexed, toList] using hhit), hpop, ih, OffsetLog.trim,
          OffsetLog.trim, List.dropWhile_cons_of_pos (by simpa using hhit)]
      · rw [if_neg (by simpa [indexed, toList] using hhit), OffsetLog.trim,
          List.dropWhile_cons_of_neg (by simpa using hhit)]

/-- Of the entries before an offset, those from an earlier one on follow the ones before that. -/
theorem drop_takeWhile {entries : List α} {start stop : Int}
    (h : entries.Pairwise fun a b => Positioned.offset a ≤ Positioned.offset b) :
    (entries.takeWhile (Positioned.offset · < stop)).drop
        (entries.takeWhile (Positioned.offset · < start)).length =
      (entries.dropWhile (Positioned.offset · < start)).takeWhile
        (Positioned.offset · < stop) := by
  induction entries with
  | nil => rfl
  | cons first rest ih =>
      rw [List.pairwise_cons] at h
      by_cases hstart : Positioned.offset first < start
      · rw [List.takeWhile_cons_of_pos (by simpa using hstart), List.length_cons,
          List.dropWhile_cons_of_pos (by simpa using hstart)]
        by_cases hstop : Positioned.offset first < stop
        · rw [List.takeWhile_cons_of_pos (by simpa using hstop), List.drop_succ_cons, ih h.2]
        · -- Nothing later begins before `stop` either.
          have hnone : (rest.dropWhile (Positioned.offset · < start)).takeWhile
              (Positioned.offset · < stop) = [] :=
            List.takeWhile_eq_nil_iff.mpr fun hlength => by
              have hmem := (List.dropWhile_sublist (Positioned.offset · < start)).subset
                (List.get_mem (rest.dropWhile (Positioned.offset · < start)) ⟨0, hlength⟩)
              have := h.1 _ hmem
              simp only [decide_eq_true_eq]
              omega
          rw [List.takeWhile_cons_of_neg (by simpa using hstop), List.drop_nil, hnone]
      · rw [List.takeWhile_cons_of_neg (by simpa using hstart),
          List.dropWhile_cons_of_neg (by simpa using hstart)]
        rfl

/-- Both logs have the same entries between two offsets. -/
theorem Ordered.indexed_between (h : log.Ordered) (start stop : Int) :
    log.indexed.between start stop = log.between start stop := by
  simp only [IndexedLog.between, h.bisect_eq]
  rw [indexed, ← List.prefix_iff_eq_take.mp (List.takeWhile_prefix _),
    drop_takeWhile h.pairwise_toList]
  rfl

theorem Ordered.indexed_run (h : log.Ordered) (steps : List (LogStep α)) :
    log.indexed.run steps = (log.run steps).indexed := by
  induction steps generalizing log with
  | nil => rfl
  | cons change later ih =>
      have hstep : log.indexed.step change = (log.step change).indexed := by
        cases change with
        | record entry => exact h.indexed_record entry
        | trim offset => exact log.indexed_trim offset
      rw [IndexedLog.run, List.foldl_cons, hstep]
      exact ih (h.step change)

end OffsetLog

/-- After any changes a log holds, by offset and then by arrival, what was recorded and not hit by a
later trim, and between two offsets the entries that begin there.  The log with the list of offsets
holds the same entries, each beside its offset, and has the same ones between two offsets. -/
theorem log_holds_what_survives (steps : List (LogStep α)) :
    InStableOrder ((OffsetLog.empty : OffsetLog α).run steps).toList (LogStep.surviving steps) ∧
      ((IndexedLog.empty : IndexedLog α).run steps).entries =
        ((OffsetLog.empty : OffsetLog α).run steps).toList ∧
      ((IndexedLog.empty : IndexedLog α).run steps).offsets =
        ((IndexedLog.empty : IndexedLog α).run steps).entries.map Positioned.offset ∧
      ∀ start stop : Int,
        ((OffsetLog.empty : OffsetLog α).run steps).between start stop =
            ((OffsetLog.empty : OffsetLog α).run steps).toList.filter
              (fun entry => start ≤ Positioned.offset entry ∧ Positioned.offset entry < stop) ∧
          ((IndexedLog.empty : IndexedLog α).run steps).between start stop =
            ((OffsetLog.empty : OffsetLog α).run steps).between start stop := by
  have hordered := OffsetLog.ordered_empty.run steps
  have hindexed : (IndexedLog.empty : IndexedLog α).run steps =
      ((OffsetLog.empty : OffsetLog α).run steps).indexed :=
    OffsetLog.ordered_empty.indexed_run steps
  rw [hindexed]
  refine ⟨OffsetLog.inStableOrder_run steps, rfl, rfl, fun start stop =>
    ⟨?_, hordered.indexed_between start stop⟩⟩
  rw [hordered.between_eq_filter, List.filter_filter]
  refine List.filter_congr fun entry _ => ?_
  rw [Bool.decide_and, Bool.and_comm]

end CartLua
