import CartLua.Text.CaseMap.Tables
import CartLua.Text.Ranges

/-!
# Lower and upper case

Full case mapping of a text, which may change its length: `İ` becomes an `i`
followed by a combining dot, `ß` becomes `SS`.  A capital sigma at the end of a
word takes its final form.  ASCII letters are mapped without a table.  A text holds
Unicode scalar values only, so the tables say nothing about surrogates.
-/

namespace CartLua.Text

namespace CaseMap

/-- The image of a code point under the first run that holds it. -/
def shifted (runs : List Run) (c : Char) : Char :=
  match runs.find? (fun run => c.toNat ≤ run.last) with
  | some run =>
      if run.first ≤ c.toNat && (c.toNat - run.first) % run.step == 0 then
        Char.ofNat (c.toNat + run.shift).toNat
      else c
  | none => c

/-- A letter with case that ends or continues a word. -/
def isCased (c : Char) : Bool :=
  within casedBounds c.toNat

/-- A character that word boundaries look through, such as a combining mark. -/
def isCaseIgnorable (c : Char) : Bool :=
  within caseIgnorableBounds c.toNat

/-- Whether the nearest character that is not looked through is a cased letter. -/
def borderedByCased (cs : List Char) : Bool :=
  match cs.dropWhile isCaseIgnorable with
  | [] => false
  | c :: _ => isCased c

/-- The lower-case form of one character outside ASCII; a capital sigma is at the
end of a word when `final` is set. -/
def lowerWide (final : Bool) (c : Char) : List Char :=
  if c = 'Σ' then [if final then 'ς' else 'σ']
  else if c = 'İ' then ['i', '\u0307']
  else [shifted lowerRuns c]

/-- Lower-case forms of the characters after `before`, which is held in reverse. -/
def lowerAfter : List Char → List Char → List Char
  | _, [] => []
  | before, c :: cs =>
      (if c.toNat < 0x80 then [c.toLower]
       else lowerWide (borderedByCased before && !borderedByCased cs) c) ++
        lowerAfter (c :: before) cs

def upperChar (c : Char) : List Char :=
  if c.toNat < 0x80 then [c.toUpper]
  else
    match upperExpansions.find? (fun expansion => expansion.1 == c.toNat) with
    | some expansion => expansion.2.map Char.ofNat
    | none => [shifted upperRuns c]

end CaseMap

def lower (cs : List Char) : List Char :=
  CaseMap.lowerAfter [] cs

def upper (cs : List Char) : List Char :=
  cs.flatMap CaseMap.upperChar

example : lower ['İ'] = ['i', '\u0307'] := by decide
example : upper ['ß'] = ['S', 'S'] := by decide

end CartLua.Text
