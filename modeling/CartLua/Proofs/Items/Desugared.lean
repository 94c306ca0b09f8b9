import CartLua.Proofs.Items.Basic

/-!
# Items that are desugared

The occurrences of a text tell which of its items are written anew.  A comparison is one item.
A compound assignment is a row of items, in which its operator follows the target; its target is
written a second time, with every item on one line.
-/

namespace CartLua

open Dialect

namespace Item

/-- The text of an item where it must not break the line. -/
def flat (item : Item) : List Char :=
  match item.role with
  | .comment => [' ']
  | .string => ((OneLine.flatString? item.text).join).getD (OneLine.spaced item.text)
  | _ => OneLine.spaced item.text

/-- Whether items end as a variable does, with a name or the bracket of an index and padding. -/
def Closes (items : List Item) : Prop :=
  ∃ front last padding, items = front ++ last :: padding ∧ (last.role = .word ∨ last.text = [']']) ∧
    ∀ item ∈ padding, item.isPadding = true

theorem closes_concat {last : Item} (h : last.role = .word ∨ last.text = [']'])
    (front : List Item) : Closes (front ++ [last]) :=
  ⟨front, last, [], rfl, h, nofun⟩

theorem Closes.append_left {items : List Item} (h : Closes items) (before : List Item) :
    Closes (before ++ items) := by
  obtain ⟨front, last, padding, rfl, hlast, hpadding⟩ := h
  exact ⟨before ++ front, last, padding, by simp, hlast, hpadding⟩

theorem Closes.append_padding {items more : List Item} (h : Closes items)
    (hmore : ∀ item ∈ more, item.isPadding = true) : Closes (items ++ more) := by
  obtain ⟨front, last, padding, rfl, hlast, hpadding⟩ := h
  exact ⟨front, last, padding ++ more, by simp, hlast, List.forall_mem_append.mpr ⟨hpadding, hmore⟩⟩

end Item

/-- An item of an output, and whether it is always written on one line. -/
structure Written where
  item : Item
  flat : Bool
  deriving DecidableEq, Repr

namespace Written

/-- A symbol that is put between the items of a text. -/
def mark (c : Char) : Written := ⟨⟨.symbol, [c]⟩, false⟩

/-- An item written on one line. -/
def flatten (w : Written) : Written := { w with flat := true }

/-- How an item is written. -/
def text (w : Written) : List Char := if w.flat then w.item.flat else w.item.text

/-- How several items are written. -/
def textOf (ws : List Written) : List Char := ws.flatMap text

@[simp]
theorem textOf_nil : textOf [] = [] := rfl

@[simp]
theorem textOf_cons (w : Written) (ws : List Written) : textOf (w :: ws) = w.text ++ textOf ws :=
  rfl

@[simp]
theorem textOf_append (as bs : List Written) : textOf (as ++ bs) = textOf as ++ textOf bs :=
  List.flatMap_append

end Written

/-- How items from an offset on are written, with the occurrences among them.  The comments and
strings of the whole text are given by a log. -/
inductive Desugars (log : List Lexeme) :
    (offset : Nat) → List Item → List Occurrence → List Written → Prop
  | nil (offset : Nat) : Desugars log offset [] [] []
  | keep {offset : Nat} {item : Item} {items : List Item} {os : List Occurrence}
      {ws : List Written} (plain : item.role ≠ .extension)
      (others : Desugars log (offset + item.text.length) items os ws) :
      Desugars log offset (item :: items) os (⟨item, false⟩ :: ws)
  | comparison {offset : Nat} {o : Occurrence} {items : List Item} {os : List Occurrence}
      {ws : List Written} (kind : o.kind = .notEqual) (offset_eq : o.offset = offset)
      (stop_eq : o.stop = offset + 2) (others : Desugars log (offset + 2) items os ws) :
      Desugars log offset (⟨.extension, ['!', '=']⟩ :: items) (o :: os)
        (⟨⟨.symbol, ['~', '=']⟩, false⟩ :: ws)
  | assignment {offset : Nat} {o : Occurrence} {mark : Char} {target value items : List Item}
      {inTarget inValue os : List Occurrence} {first second ws : List Written}
      (kind : o.kind = .reassignment) (offset_eq : o.offset = offset)
      (operator_eq : o.operator = some ((offset + Item.width target : Nat) : Int))
      (stop_eq : o.stop = ((offset + Item.width target + 2 + Item.width value : Nat) : Int))
      (layout_eq : o.layout = log.filter fun lexeme => (offset : Int) ≤ lexeme.offset &&
        lexeme.offset < ((offset + Item.width target : Nat) : Int))
      (mark_mem : mark ∈ Desugar.operators)
      (starts : ∃ item ∈ target.head?, item.role = .word ∨ item.text = ['('])
      (closes : Item.Closes target)
      (ends : ∀ item ∈ value.getLast?, item.isPadding = false)
      (inner : Desugars log offset target inTarget first)
      (right : Desugars log (offset + Item.width target + 2) value inValue second)
      (others : Desugars log (offset + Item.width target + 2 + Item.width value) items os ws) :
      Desugars log offset (target ++ ⟨.extension, [mark, '=']⟩ :: (value ++ items))
        (o :: (inTarget ++ (inValue ++ os)))
        (first ++ .mark '=' :: (first.map Written.flatten ++ .mark mark :: .mark '(' ::
          (second ++ .mark ')' :: ws)))

namespace Desugars

variable {log : List Lexeme} {offset : Nat} {items more : List Item} {os others : List Occurrence}
  {ws vs : List Written}

/-- Items without an operator of the extended dialect are written as they are. -/
theorem of_plain (h : ∀ item ∈ items, item.role ≠ .extension) (offset : Nat) :
    Desugars log offset items [] (items.map (⟨·, false⟩)) := by
  induction items generalizing offset with
  | nil => exact .nil offset
  | cons item items ih =>
      obtain ⟨hitem, hothers⟩ := List.forall_mem_cons.mp h
      exact .keep hitem (ih hothers _)

/-- Items in a row are written in a row. -/
theorem append (h : Desugars log offset items os ws)
    (hmore : Desugars log (offset + Item.width items) more others vs) :
    Desugars log offset (items ++ more) (os ++ others) (ws ++ vs) := by
  induction h with
  | nil _ => exact hmore
  | keep plain _ ih =>
      rw [Item.width_cons, ← Nat.add_assoc] at hmore
      exact .keep plain (ih hmore)
  | comparison kind offset_eq stop_eq _ ih =>
      rw [Item.width_cons, ← Nat.add_assoc] at hmore
      exact .comparison kind offset_eq stop_eq (ih hmore)
  | @assignment offset o mark target value items inTarget inValue os first second ws kind offset_eq
      operator_eq stop_eq layout_eq mark_mem starts closes ends inner right _ _ _ ih =>
      have hwidth : offset + Item.width (target ++ ⟨.extension, [mark, '=']⟩ :: (value ++ items)) =
          offset + Item.width target + 2 + Item.width value + Item.width items := by
        simp only [Item.width_append, Item.width_cons, List.length_cons, List.length_nil]
        omega
      rw [hwidth] at hmore
      have hall := Desugars.assignment kind offset_eq operator_eq stop_eq layout_eq mark_mem starts
        closes ends inner right (ih hmore)
      simpa using hall

/-- The occurrences among items lie within them. -/
theorem bounds (h : Desugars log offset items os ws) : ∀ o ∈ os,
    (offset : Int) ≤ o.offset ∧ o.offset < o.stop ∧ o.stop ≤ (offset + Item.width items : Nat) := by
  induction h with
  | nil _ => exact fun _ h => absurd h List.not_mem_nil
  | keep _ _ ih =>
      intro o ho
      have hbounds := ih o ho
      rw [Item.width_cons]
      omega
  | comparison _ offset_eq stop_eq _ ih =>
      intro o ho
      rw [Item.width_cons]
      simp only [List.length_cons, List.length_nil]
      rcases List.mem_cons.mp ho with rfl | ho
      · omega
      · have hbounds := ih o ho
        omega
  | assignment _ offset_eq _ stop_eq _ _ _ _ _ _ _ _ ihinner ihright ihothers =>
      intro o ho
      simp only [Item.width_append, Item.width_cons, List.length_cons, List.length_nil]
      simp only [List.mem_cons, List.mem_append] at ho
      rcases ho with rfl | ho | ho | ho
      · omega
      · have hbounds := ihinner o ho
        omega
      · have hbounds := ihright o ho
        omega
      · have hbounds := ihothers o ho
        omega

theorem of_nil (h : Desugars log offset [] os ws) : os = [] ∧ ws = [] := by
  generalize hnone : ([] : List Item) = items at h
  cases h with
  | nil => exact ⟨rfl, rfl⟩
  | assignment =>
      have hlength := congrArg List.length hnone
      simp at hlength
  | _ => cases hnone

/-- Padding behind other items is written as it is. -/
theorem of_concat_padding {item : Item} (hitem : item.isPadding = true)
    (h : Desugars log offset (items ++ [item]) os ws) : ∃ vs, Desugars log offset items os vs := by
  generalize hall : items ++ [item] = all at h
  induction h generalizing items with
  | nil _ => simp at hall
  | @keep offset first all os ws plain others ih =>
      cases items with
      | nil =>
          cases hall
          obtain ⟨rfl, rfl⟩ := others.of_nil
          exact ⟨[], .nil offset⟩
      | cons head items =>
          cases hall
          obtain ⟨vs, hvs⟩ := ih rfl
          exact ⟨_, .keep plain hvs⟩
  | @comparison offset o all os ws kind offset_eq stop_eq others ih =>
      cases items with
      | nil =>
          cases hall
          cases hitem
      | cons head items =>
          cases hall
          obtain ⟨vs, hvs⟩ := ih rfl
          exact ⟨_, .comparison kind offset_eq stop_eq hvs⟩
  | @assignment offset o mark target value all inTarget inValue os first second ws kind offset_eq
      operator_eq stop_eq layout_eq mark_mem starts closes ends inner right others _ _ ih =>
      rcases List.eq_nil_or_concat all with rfl | ⟨front, last, rfl⟩
      · -- The last item is that of the value, which is no padding, or the operator.
        have hlast := congrArg List.getLast? hall
        rw [List.getLast?_concat, List.append_nil, List.getLast?_append,
          List.getLast?_cons] at hlast
        cases hvalue : value.getLast? with
        | none =>
            rw [hvalue] at hlast
            cases hlast
            cases hitem
        | some final =>
            rw [hvalue] at hlast
            cases hlast
            rw [Option.getD_some, ends _ hvalue] at hitem
            cases hitem
      · rw [List.concat_eq_append] at hall ih
        rw [← List.append_assoc value, ← List.cons_append, ← List.append_assoc target] at hall
        obtain ⟨rfl, hlast⟩ := List.append_inj' hall rfl
        cases hlast
        obtain ⟨vs, hvs⟩ := ih rfl
        exact ⟨_, .assignment kind offset_eq operator_eq stop_eq layout_eq mark_mem starts closes
          ends inner right hvs⟩

/-- Padding behind other items may be left out. -/
theorem of_append_padding {padding : List Item} (hpadding : ∀ item ∈ padding, item.isPadding = true)
    (h : Desugars log offset (items ++ padding) os ws) : ∃ vs, Desugars log offset items os vs := by
  induction padding generalizing items with
  | nil => exact ⟨ws, by simpa using h⟩
  | cons item padding ih =>
      obtain ⟨hitem, hothers⟩ := List.forall_mem_cons.mp hpadding
      rw [← List.singleton_append, ← List.append_assoc] at h
      obtain ⟨vs, hvs⟩ := ih hothers h
      exact of_concat_padding hitem hvs

end Desugars

/-! ## One compound assignment -/

/-- Whether an occurrence lies between two positions. -/
def Occurrence.between (start stop : Int) (o : Occurrence) : Bool :=
  start ≤ o.offset && o.stop ≤ stop

/-- Whether items are the target and the value of a compound assignment at an offset, with the
occurrences in them and what is written for them. -/
structure Assigns (log : List Lexeme) (offset : Nat) (o : Occurrence) (mark : Char)
    (target value : List Item) (inTarget inValue : List Occurrence) (first second : List Written) :
    Prop where
  offset_eq : o.offset = offset
  operator_eq : o.operator = some ((offset + Item.width target : Nat) : Int)
  stop_eq : o.stop = ((offset + Item.width target + 2 + Item.width value : Nat) : Int)
  layout_eq : o.layout = log.filter fun lexeme => (offset : Int) ≤ lexeme.offset &&
    lexeme.offset < ((offset + Item.width target : Nat) : Int)
  mark_mem : mark ∈ Desugar.operators
  starts : ∃ item ∈ target.head?, item.role = .word ∨ item.text = ['(']
  closes : Item.Closes target
  inner : Desugars log offset target inTarget first
  right : Desugars log (offset + Item.width target + 2) value inValue second

namespace Occurrence

variable {start stop : Int} {as bs os : List Occurrence}

theorem filter_between_eq_nil (h : ∀ o ∈ os, o.offset < start ∨ stop < o.stop) :
    os.filter (between start stop) = [] := by
  refine List.filter_eq_nil_iff.mpr fun o ho => ?_
  have hapart := h o ho
  simp only [between, Bool.and_eq_true, decide_eq_true_eq]
  omega

theorem filter_between_eq_self (h : ∀ o ∈ os, start ≤ o.offset ∧ o.stop ≤ stop) :
    os.filter (between start stop) = os := by
  refine List.filter_eq_self.mpr fun o ho => ?_
  simpa [between] using h o ho

theorem filter_between_append_left (h : ∀ o ∈ bs, o.offset < start ∨ stop < o.stop) :
    (as ++ bs).filter (between start stop) = as.filter (between start stop) := by
  rw [List.filter_append, filter_between_eq_nil h, List.append_nil]

theorem filter_between_append_right (h : ∀ o ∈ as, o.offset < start ∨ stop < o.stop) :
    (as ++ bs).filter (between start stop) = bs.filter (between start stop) := by
  rw [List.filter_append, filter_between_eq_nil h, List.nil_append]

theorem filter_between_cons {o : Occurrence} (h : o.offset < start ∨ stop < o.stop)
    (os : List Occurrence) :
    (o :: os).filter (between start stop) = os.filter (between start stop) := by
  refine List.filter_cons_of_neg ?_
  simp only [between, Bool.and_eq_true, decide_eq_true_eq]
  omega

end Occurrence

/-- Whether the items of a compound assignment stand together among items from an offset, and hold
the occurrences that lie in its span. -/
def HoldsAssignment (log : List Lexeme) (offset : Nat) (items : List Item) (os : List Occurrence)
    (o : Occurrence) : Prop :=
  ∃ before target value more mark inTarget inValue first second,
    items = before ++ (target ++ ⟨.extension, [mark, '=']⟩ :: (value ++ more)) ∧
    Assigns log (offset + Item.width before) o mark target value inTarget inValue first second ∧
    ∀ start stop, o.offset ≤ start → stop ≤ o.stop →
      os.filter (Occurrence.between start stop) =
        (o :: (inTarget ++ inValue)).filter (Occurrence.between start stop)

/-- More items around those of an assignment change nothing, if their occurrences are not inside
it. -/
theorem HoldsAssignment.widen {log : List Lexeme} {offset : Nat} {items : List Item}
    {os : List Occurrence} {o : Occurrence} (front back : List Item) (lead trail : List Occurrence)
    (h : HoldsAssignment log (offset + Item.width front) items os o)
    (hlead : ∀ other ∈ lead, other.offset < o.offset ∨ o.stop < other.stop)
    (htrail : ∀ other ∈ trail, other.offset < o.offset ∨ o.stop < other.stop) :
    HoldsAssignment log offset (front ++ items ++ back) (lead ++ os ++ trail) o := by
  obtain ⟨before, target, value, more, mark, inTarget, inValue, first, second, rfl, hassigns,
    hfilter⟩ := h
  refine ⟨front ++ before, target, value, more ++ back, mark, inTarget, inValue, first, second,
    by simp, ?_, fun start stop hstart hstop => ?_⟩
  · rwa [Item.width_append, ← Nat.add_assoc]
  · rw [Occurrence.filter_between_append_left, Occurrence.filter_between_append_right,
      hfilter start stop hstart hstop]
    · exact fun other hother => by have := hlead other hother; omega
    · exact fun other hother => by have := htrail other hother; omega

namespace Desugars

variable {log : List Lexeme} {offset : Nat} {items : List Item} {os : List Occurrence}
  {ws : List Written}

/-- The items of every compound assignment stand together among all items. -/
theorem of_mem (h : Desugars log offset items os ws) {o : Occurrence} (ho : o ∈ os)
    (hkind : o.kind = .reassignment) : HoldsAssignment log offset items os o := by
  induction h with
  | nil offset => cases ho
  | @keep offset item items os ws plain others ih =>
      simpa using HoldsAssignment.widen [item] [] [] [] (by simpa using ih ho) nofun nofun
  | @comparison offset other items os ws kind offset_eq stop_eq others ih =>
      rcases List.mem_cons.mp ho with rfl | ho
      · rw [hkind] at kind
        cases kind
      have hbounds := others.bounds o ho
      have hlead : ∀ before ∈ [other], before.offset < o.offset ∨ o.stop < before.stop := by
        simp only [List.forall_mem_singleton]
        omega
      simpa using HoldsAssignment.widen [⟨.extension, ['!', '=']⟩] [] [other] [] (ih ho) hlead nofun
  | @assignment offset outer mark target value items inTarget inValue os first second ws kind
      offset_eq operator_eq stop_eq layout_eq mark_mem starts closes ends inner right others ihinner
      ihright ihothers =>
      have hvalue : offset + Item.width target + 2 =
          offset + Item.width (target ++ [⟨.extension, [mark, '=']⟩]) := by
        simp [Nat.add_assoc]
      have hmore : offset + Item.width target + 2 + Item.width value =
          offset + Item.width (target ++ ⟨.extension, [mark, '=']⟩ :: value) := by
        simp [Nat.add_assoc]
      -- Each part of the row is apart from a span in another part.
      have hinner := fun other hother => inner.bounds other hother
      have hright := fun other hother => right.bounds other hother
      have hothers := fun other hother => others.bounds other hother
      rcases List.mem_cons.mp ho with rfl | ho
      · refine ⟨[], target, value, items, mark, inTarget, inValue, first, second, rfl,
          ⟨offset_eq, operator_eq, stop_eq, layout_eq, mark_mem, starts, closes, inner, right⟩, ?_⟩
        intro start stop hstart hstop
        rw [← List.append_assoc, ← List.cons_append, Occurrence.filter_between_append_left]
        exact fun other hother => by have := hothers other hother; omega
      rcases List.mem_append.mp ho with ho | ho
      · have hbounds := hinner o ho
        have hlead : ∀ before ∈ [outer], before.offset < o.offset ∨ o.stop < before.stop := by
          simp only [List.forall_mem_singleton]
          omega
        have htrail : ∀ later ∈ inValue ++ os, later.offset < o.offset ∨ o.stop < later.stop :=
          List.forall_mem_append.mpr ⟨fun later hlater => by have := hright later hlater; omega,
            fun later hlater => by have := hothers later hlater; omega⟩
        simpa using HoldsAssignment.widen [] (⟨.extension, [mark, '=']⟩ :: (value ++ items)) [outer]
          (inValue ++ os) (ihinner ho) hlead htrail
      rcases List.mem_append.mp ho with ho | ho
      · have hbounds := hright o ho
        have hlead :
            ∀ before ∈ outer :: inTarget, before.offset < o.offset ∨ o.stop < before.stop :=
          List.forall_mem_cons.mpr ⟨by omega, fun before hbefore => by
            have := hinner before hbefore; omega⟩
        have htrail : ∀ later ∈ os, later.offset < o.offset ∨ o.stop < later.stop :=
          fun later hlater => by have := hothers later hlater; omega
        have hheld := ihright ho
        rw [hvalue] at hheld
        have hrow := hheld.widen (target ++ [⟨.extension, [mark, '=']⟩]) items
          (outer :: inTarget) os hlead htrail
        simpa only [List.append_assoc, List.cons_append, List.nil_append] using hrow
      · have hbounds := hothers o ho
        have hlead : ∀ before ∈ outer :: (inTarget ++ inValue),
            before.offset < o.offset ∨ o.stop < before.stop :=
          List.forall_mem_cons.mpr ⟨by omega, List.forall_mem_append.mpr
            ⟨fun before hbefore => by have := hinner before hbefore; omega,
              fun before hbefore => by have := hright before hbefore; omega⟩⟩
        have hheld := ihothers ho
        rw [hmore] at hheld
        simpa using HoldsAssignment.widen (target ++ ⟨.extension, [mark, '=']⟩ :: value) []
          (outer :: (inTarget ++ inValue)) [] hheld hlead nofun

end Desugars

namespace Assigns

variable {log : List Lexeme} {offset : Nat} {o : Occurrence} {mark : Char}
  {target value : List Item} {inTarget inValue os : List Occurrence} {first second : List Written}

/-- The occurrences in the target are those that lie in its span, and likewise for the value. -/
theorem filter_eq (h : Assigns log offset o mark target value inTarget inValue first second)
    (hfilter : ∀ start stop, o.offset ≤ start → stop ≤ o.stop →
      os.filter (Occurrence.between start stop) =
        (o :: (inTarget ++ inValue)).filter (Occurrence.between start stop)) :
    os.filter (Occurrence.between o.offset (offset + Item.width target : Nat)) = inTarget ∧
      os.filter (Occurrence.between ((offset + Item.width target : Nat) + 2) o.stop) = inValue := by
  have hoffset := h.offset_eq
  have hstop := h.stop_eq
  have hinner := fun other hother => h.inner.bounds other hother
  have hright := fun other hother => h.right.bounds other hother
  rw [hfilter _ _ (Int.le_refl _) (by omega), hfilter _ _ (by omega) (Int.le_refl _)]
  constructor
  · rw [Occurrence.filter_between_cons (by omega), Occurrence.filter_between_append_left,
      Occurrence.filter_between_eq_self]
    · exact fun other hother => by have := hinner other hother; omega
    · exact fun other hother => by have := hright other hother; omega
  · rw [Occurrence.filter_between_cons (by omega), Occurrence.filter_between_append_right,
      Occurrence.filter_between_eq_self]
    · exact fun other hother => by have := hright other hother; omega
    · exact fun other hother => by have := hinner other hother; omega

end Assigns

end CartLua
