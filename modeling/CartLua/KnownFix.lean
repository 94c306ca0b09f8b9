import CartLua.Journal
import CartLua.Source

/-!
# Known fixes

Some carts hold constructs that only the console accepts and that the grammar
cannot express.  Those that are known are replaced literally before the text is
parsed.
-/

namespace CartLua

/-- The text before and the text after the first place where a pattern stands. -/
def splitAtFirst? (pattern : List Char) : List Char → Option (List Char × List Char)
  | [] => if pattern.isEmpty then some ([], []) else none
  | c :: cs =>
      if pattern.isPrefixOf (c :: cs) then some ([], (c :: cs).drop pattern.length)
      else (splitAtFirst? pattern cs).map fun parts => (c :: parts.1, parts.2)

theorem eq_of_splitAtFirst? {pattern cs before after : List Char}
    (hsplit : splitAtFirst? pattern cs = some (before, after)) :
    cs = before ++ (pattern ++ after) := by
  induction cs generalizing before with
  | nil =>
      simp only [splitAtFirst?, List.isEmpty_iff] at hsplit
      split at hsplit <;> simp_all
  | cons c cs ih =>
      rw [splitAtFirst?] at hsplit
      split at hsplit
      · rename_i hstands
        obtain ⟨rest, hrest⟩ := List.isPrefixOf_iff_prefix.mp hstands
        simp only [Option.some.injEq, Prod.mk.injEq] at hsplit
        obtain ⟨rfl, rfl⟩ := hsplit
        rw [← hrest]
        simp
      · obtain ⟨parts, hparts, heq⟩ := Option.map_eq_some_iff.mp hsplit
        simp only [Prod.mk.injEq] at heq
        obtain ⟨rfl, rfl⟩ := heq
        rw [ih hparts]
        simp

/-- Replace the first occurrence of a pattern, and then add a suffix to the
text. -/
structure KnownFix where
  name : String
  pattern : List Char
  replacement : List Char
  suffix : List Char
  deriving DecidableEq, Repr, Inhabited

namespace KnownFix

def applied? (fix : KnownFix) (text : List Char) : Option (List Char) :=
  (splitAtFirst? fix.pattern text).map fun parts =>
    parts.1 ++ fix.replacement ++ parts.2 ++ fix.suffix

/-- A short `if` around a function that it never closes. -/
def update60 : KnownFix where
  name := "update60_short_if"
  pattern := "if(_update60)_update=function()".toList
  replacement := "\nif(_update60)then _update=function()".toList
  suffix := " end".toList

def builtIn : List KnownFix := [update60]

/-- The text after fixes in order, and the names of those whose patterns were
found. -/
def applyInOrder : List KnownFix → List Char → List Char × List String
  | [], text => (text, [])
  | fix :: fixes, text =>
      match fix.applied? text with
      | some fixed =>
          let (text, names) := applyInOrder fixes fixed
          (text, fix.name :: names)
      | none => applyInOrder fixes text

/-- A source after fixes in order, and the names of those that applied.  When none
did, it is the source itself. -/
def applyAll (fixes : List KnownFix) (source : Source) : Source × List String :=
  match applyInOrder fixes source.chars with
  | (_, []) => (source, [])
  | (text, names) => (source.replaced text, names)

def journal (names : List String) : Journal :=
  names.map fun name => ⟨.knownFixes, .info, "Applied known fix " ++ name⟩

end KnownFix

end CartLua
