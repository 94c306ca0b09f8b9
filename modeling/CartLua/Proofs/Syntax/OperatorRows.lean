import CartLua.Proofs.Lexical.Names

/-!
# Rows of operators

Names with binary operators between them, as a reader groups them: an operator of a tier is looser
than those of the tiers after it, so the operators of a tier and of tighter ones hold a run of names
together.  This says nothing of the grammar yet; it is what the grammar is compared with.
-/

namespace CartLua

open Dialect

/-- A tier of binary operators, from the loosest to the tightest one. -/
inductive Tier
  | expression | one | two | three | four | five | six | seven | eight | nine | eleven
  deriving DecidableEq, Repr

namespace Tier

/-- How tightly the operators of a tier bind. -/
def level : Tier → Nat
  | expression => 0
  | one => 1
  | two => 2
  | three => 3
  | four => 4
  | five => 5
  | six => 6
  | seven => 7
  | eight => 8
  | nine => 9
  | eleven => 10

/-- Whether the operators of a tier group to the right. -/
def isRight : Tier → Bool
  | seven => true
  | eleven => true
  | _ => false

/-- All the tiers. -/
def all : List Tier := [expression, one, two, three, four, five, six, seven, eight, nine, eleven]

theorem mem_all (t : Tier) : t ∈ all := by cases t <;> decide

theorem level_lt (t : Tier) : t.level < 11 := by cases t <;> decide

theorem eq_of_level_eq {t w : Tier} (h : t.level = w.level) : t = w := by
  cases t <;> cases w <;> first | rfl | cases h

end Tier

/-- A binary operator of the dialect of carts. -/
inductive Operator
  | or | and
  | less | greater | lessEqual | greaterEqual | notEqual | bangEqual | equal
  | bitOr | bitXor | bitAnd
  | shiftLeft | shiftRight
  | concat
  | plus | minus
  | times | divide | floorDivide | modulo
  | power
  deriving DecidableEq, Repr

namespace Operator

/-- How an operator is written. -/
def text : Operator → String
  | or => "or"
  | and => "and"
  | less => "<"
  | greater => ">"
  | lessEqual => "<="
  | greaterEqual => ">="
  | notEqual => "~="
  | bangEqual => "!="
  | equal => "=="
  | bitOr => "|"
  | bitXor => "~"
  | bitAnd => "&"
  | shiftLeft => "<<"
  | shiftRight => ">>"
  | concat => ".."
  | plus => "+"
  | minus => "-"
  | times => "*"
  | divide => "/"
  | floorDivide => "//"
  | modulo => "%"
  | power => "^"

/-- The tier of an operator. -/
def tier : Operator → Tier
  | or => .expression
  | and => .one
  | less | greater | lessEqual | greaterEqual | notEqual | bangEqual | equal => .two
  | bitOr => .three
  | bitXor => .four
  | bitAnd => .five
  | shiftLeft | shiftRight => .six
  | concat => .seven
  | plus | minus => .eight
  | times | divide | floorDivide | modulo => .nine
  | power => .eleven

/-- How tightly an operator binds. -/
def level (o : Operator) : Nat := o.tier.level

def chars (o : Operator) : List Char := o.text.toList

/-- All the operators. -/
def all : List Operator :=
  [or, and, less, greater, lessEqual, greaterEqual, notEqual, bangEqual, equal, bitOr, bitXor,
    bitAnd, shiftLeft, shiftRight, concat, plus, minus, times, divide, floorDivide, modulo, power]

theorem mem_all (o : Operator) : o ∈ all := by cases o <;> decide

end Operator

/-- Operators, each with the name after it. -/
abbrev Links := List (Operator × Identifier)

namespace Links

/-- The text of operators and names, with a blank on each side of an operator. -/
def text : Links → List Char
  | [] => []
  | (o, n) :: more => ' ' :: (o.chars ++ ' ' :: (n.chars ++ text more))

@[simp]
theorem text_append (xs ys : Links) : text (xs ++ ys) = text xs ++ text ys := by
  induction xs with
  | nil => rfl
  | cons x xs ih => simp [text, ih]

/-- A name ends before an operator, and with the text. -/
theorem endsWord_text (xs : Links) : EndsWord (text xs) := by
  cases xs with
  | nil => exact nofun
  | cons x xs =>
      intro c hc
      obtain rfl := Option.some.inj hc
      decide

/-- Whether all operators bind at least as tightly as those of a level. -/
def Holds (level : Nat) (xs : Links) : Prop := ∀ x ∈ xs, level ≤ x.1.level

/-- Whether the first operator, if there is one, is looser than those of a level. -/
def Stops (level : Nat) (xs : Links) : Prop := ∀ x ∈ xs.head?, x.1.level < level

theorem Holds.of_cons {level : Nat} {x : Operator × Identifier} {xs : Links}
    (h : Holds level (x :: xs)) : level ≤ x.1.level ∧ Holds level xs :=
  List.forall_mem_cons.mp h

/-- Operators that hold at a level hold above it up to the first one of that very level. -/
theorem Holds.exists_split {level : Nat} {xs : Links} (h : Holds level xs) :
    ∃ ys zs, xs = ys ++ zs ∧ Holds (level + 1) ys ∧ Holds level zs ∧ Stops (level + 1) zs := by
  induction xs with
  | nil => exact ⟨[], [], rfl, nofun, h, nofun⟩
  | cons x xs ih =>
      obtain ⟨hx, hxs⟩ := h.of_cons
      by_cases hlevel : level + 1 ≤ x.1.level
      · obtain ⟨ys, zs, rfl, hys, hzs, hstops⟩ := ih hxs
        exact ⟨x :: ys, zs, rfl, List.forall_mem_cons.mpr ⟨hlevel, hys⟩, hzs, hstops⟩
      · refine ⟨[], x :: xs, rfl, nofun, h, fun y hy => ?_⟩
        obtain rfl := Option.some.inj hy
        omega

theorem Stops.append {level : Nat} {xs rest : Links} (h : Stops (level + 1) xs)
    (hrest : Stops level rest) : Stops (level + 1) (xs ++ rest) := by
  cases xs with
  | nil => exact fun y hy => Nat.lt_succ_of_lt (hrest y hy)
  | cons x xs => exact h

end Links

/-- Names with operators between them. -/
structure Row where
  first : Identifier
  more : Links

namespace Row

/-- The text of a row. -/
def text (row : Row) : List Char := row.first.chars ++ row.more.text

/-- The maximal runs of a row without an operator below a level, from left to right, where the
first one has begun already. -/
def runsFrom (level : Nat) (run : Row) : Links → List Row
  | [] => [run]
  | (o, n) :: more =>
      if o.level < level then run :: runsFrom level ⟨n, []⟩ more
      else runsFrom level ⟨run.first, run.more ++ [(o, n)]⟩ more

/-- The maximal runs of a row without an operator looser than those of a tier. -/
def runs (row : Row) (t : Tier) : List Row := runsFrom t.level ⟨row.first, []⟩ row.more

/-- What follows each operator of a tier up to the end of a row, the shortest first. -/
def suffixesFrom (t : Tier) : Links → List Row
  | [] => []
  | (o, n) :: more => suffixesFrom t more ++ if o.tier = t then [⟨n, more⟩] else []

/-- The suffixes of a row that begin where it begins or right after an operator of a tier, the
shortest first. -/
def suffixes (row : Row) (t : Tier) : List Row := suffixesFrom t row.more ++ [row]

/-- The parts of a row that a tier groups: its runs, and where the operators of the tier group to
the right, the suffixes of each run. -/
def groups (row : Row) (t : Tier) : List Row :=
  (row.runs t).flatMap fun run => if t.isRight then run.suffixes t else [run]

variable {level : Nat} {t : Tier} {first n : Identifier} {o : Operator} {xs ys rest : Links}

theorem text_append_links (first : Identifier) (xs : Links) :
    text ⟨first, xs⟩ ++ rest.text = first.chars ++ (xs ++ rest).text := by
  simp [text]

/-- What follows a row may be more of it. -/
theorem text_append (first : Identifier) (xs ys : Links) :
    text ⟨first, xs⟩ ++ (ys ++ rest).text = text ⟨first, xs ++ ys⟩ ++ rest.text := by
  rw [text_append_links, text_append_links, List.append_assoc]

/-- Without a looser operator a run goes on to the end. -/
theorem runsFrom_of_holds (run : Row) (h : xs.Holds level) :
    runsFrom level run xs = [⟨run.first, run.more ++ xs⟩] := by
  induction xs generalizing run with
  | nil => simp [runsFrom]
  | cons x xs ih =>
      obtain ⟨hx, hxs⟩ := h.of_cons
      rw [runsFrom, if_neg (Nat.not_lt.mpr hx), ih _ hxs]
      simp

/-- A looser operator parts the runs before it from those after it. -/
theorem runsFrom_append (run : Row) (ho : o.level < level) (xs : Links) :
    runsFrom level run (xs ++ (o, n) :: ys) =
      runsFrom level run xs ++ runsFrom level ⟨n, []⟩ ys := by
  induction xs generalizing run with
  | nil => simp [runsFrom, ho]
  | cons x xs ih =>
      rw [List.cons_append, runsFrom, runsFrom]
      split
      · rw [ih, List.cons_append]
      · exact ih _

/-- A row without a looser operator has one run. -/
theorem runs_of_holds (h : xs.Holds t.level) : runs ⟨first, xs⟩ t = [⟨first, xs⟩] :=
  runsFrom_of_holds ⟨first, []⟩ h

/-- Before and after a looser operator a row is grouped on its own. -/
theorem groups_append (ho : o.level < t.level) :
    groups ⟨first, xs ++ (o, n) :: ys⟩ t = groups ⟨first, xs⟩ t ++ groups ⟨n, ys⟩ t := by
  simp only [groups, runs, runsFrom_append _ ho, List.flatMap_append]

/-- A run of a tier that groups to the left is one group. -/
theorem groups_of_left (ht : t.isRight = false) (h : xs.Holds t.level) :
    groups ⟨first, xs⟩ t = [⟨first, xs⟩] := by
  simp [groups, runs_of_holds h, ht]

theorem groups_of_right (ht : t.isRight = true) (h : xs.Holds t.level) :
    groups ⟨first, xs⟩ t = suffixes ⟨first, xs⟩ t := by
  simp [groups, runs_of_holds h, ht]

/-- Tighter operators begin no suffix. -/
theorem suffixesFrom_append (hxs : xs.Holds (t.level + 1)) :
    suffixesFrom t (xs ++ ys) = suffixesFrom t ys := by
  induction xs with
  | nil => rfl
  | cons x xs ih =>
      obtain ⟨hx, hothers⟩ := hxs.of_cons
      have hne : x.1.tier ≠ t := by
        rintro rfl
        exact absurd hx (Nat.not_succ_le_self _)
      rw [List.cons_append, suffixesFrom, if_neg hne, List.append_nil, ih hothers]

/-- A run of a tier that groups to the right ends with the groups after its first operator. -/
theorem groups_of_link (ht : t.isRight = true) (hxs : xs.Holds (t.level + 1)) (ho : o.tier = t)
    (hys : ys.Holds t.level) :
    groups ⟨first, xs ++ (o, n) :: ys⟩ t =
      groups ⟨n, ys⟩ t ++ [⟨first, xs ++ (o, n) :: ys⟩] := by
  have hlevel : o.level = t.level := congrArg Tier.level ho
  have hall : Links.Holds t.level (xs ++ (o, n) :: ys) := by
    refine List.forall_mem_append.mpr ⟨fun x hx => Nat.le_of_succ_le (hxs x hx), ?_⟩
    exact List.forall_mem_cons.mpr ⟨Nat.le_of_eq hlevel.symm, hys⟩
  rw [groups_of_right ht hall, groups_of_right ht hys, suffixes, suffixes, suffixesFrom_append hxs,
    suffixesFrom, if_pos ho]

theorem groups_of_tight (ht : t.isRight = true) (hxs : xs.Holds (t.level + 1)) :
    groups ⟨first, xs⟩ t = [⟨first, xs⟩] := by
  have hall : Links.Holds t.level xs := fun x hx => Nat.le_of_succ_le (hxs x hx)
  have hnone : suffixesFrom t (xs ++ []) = [] := suffixesFrom_append hxs
  rw [List.append_nil] at hnone
  rw [groups_of_right ht hall, suffixes, hnone]
  rfl

end Row

end CartLua
