import CartLua.Proofs.Occurrence.Ends

/-!
# The items of a text

A derivation shows more of a text than its tokens need.  Here its trees are read as a row of
items: words, numerals, strings and symbols, and the comments and blanks between them.  The
operators of the extended dialect are told from those of plain Lua.  What a short `if` takes
without looking into it is kept apart, because no token can be told there.
-/

namespace CartLua

open Dialect

/-- What a piece of a text is to the grammar. -/
inductive Role
  | word
  | numeral
  | string
  | symbol
  /-- An operator that only the extended dialect has. -/
  | extension
  | comment
  | blank
  /-- A first line that names an interpreter. -/
  | header
  /-- A piece of something that is taken as it stands. -/
  | raw
  deriving DecidableEq, Repr

/-- A piece of a text with what it is. -/
structure Item where
  role : Role
  text : List Char
  deriving DecidableEq, Repr

namespace Role

/-- What the whole match of a rule is, if the rule is lexical. -/
def ofRule? (name : String) : Option Role :=
  if name = "comment" then some comment
  else if name = "literal_string" then some string
  else if name = "numeral" then some numeral
  else if name = "interpreter" then some header
  else if name = OccurrenceKind.notEqual.name || name = "operators_reassign" then some extension
  else if name = "name" || (keywords.map keyName).contains name then some word
  else none

/-- What the characters are that a rule takes itself, when those around it have a role. -/
def inside (role : Role) (rule : Rule) : Role :=
  if rule.padding then blank else if rule.name = OccurrenceKind.shortIf.name then raw else role

/-- Whether characters may have a role that no lexical rule takes. -/
def isLoose : Role → Bool
  | symbol => true
  | blank => true
  | raw => true
  | _ => false

/-- The kind of lexeme that comments and strings are. -/
def lexemeKind? : Role → Option LexemeKind
  | comment => some .comment
  | string => some .string
  | _ => none

theorem isLoose_inside {role : Role} (h : role.isLoose = true) (rule : Rule) :
    (role.inside rule).isLoose = true := by
  rw [inside]
  split
  · rfl
  · split
    · rfl
    · exact h

theorem lexemeKind?_of_isLoose {role : Role} (h : role.isLoose = true) :
    role.lexemeKind? = none := by
  cases role <;> first | rfl | cases h

/-- The recorder takes a rule for a comment or a string where it is lexical and takes one. -/
theorem lexemeKind?_eq (name : String) :
    Recorder.lexemeKind? name = (ofRule? name).bind lexemeKind? := by
  rw [Recorder.lexemeKind?, ofRule?]
  by_cases hcomment : name = "comment"
  · rw [if_pos hcomment, if_pos hcomment]
    rfl
  rw [if_neg hcomment, if_neg hcomment]
  by_cases hstring : name = "literal_string"
  · rw [if_pos hstring, if_pos hstring]
    rfl
  rw [if_neg hstring, if_neg hstring]
  repeat (split; rfl)
  rfl

end Role

namespace Tree

mutual

/-- The items of a tree whose own characters have a role. -/
def items (role : Role) : Tree → List Item
  | chars taken => [⟨role, taken⟩]
  | node rule parts =>
      match Role.ofRule? rule.name with
      | some lexical => [⟨lexical, textOfAll parts⟩]
      | none => itemsOfAll (role.inside rule) parts

/-- The items of several trees in a row. -/
def itemsOfAll (role : Role) : List Tree → List Item
  | [] => []
  | part :: parts => part.items role ++ itemsOfAll role parts

end

@[simp]
theorem itemsOfAll_append (role : Role) (as bs : List Tree) :
    itemsOfAll role (as ++ bs) = itemsOfAll role as ++ itemsOfAll role bs := by
  induction as with
  | nil => rfl
  | cons a as ih => simp [itemsOfAll, ih]

theorem items_of_lexical {rule : Rule} {lexical : Role} (h : Role.ofRule? rule.name = some lexical)
    (role : Role) (parts : List Tree) :
    (node rule parts).items role = [⟨lexical, textOfAll parts⟩] := by
  rw [items, h]

theorem items_of_none {rule : Rule} (h : Role.ofRule? rule.name = none) (role : Role)
    (parts : List Tree) : (node rule parts).items role = itemsOfAll (role.inside rule) parts := by
  rw [items, h]

end Tree

namespace Item

/-- The text of several items in a row. -/
def textOf (items : List Item) : List Char := items.flatMap text

@[simp]
theorem textOf_nil : textOf [] = [] := rfl

@[simp]
theorem textOf_cons (item : Item) (items : List Item) :
    textOf (item :: items) = item.text ++ textOf items := rfl

@[simp]
theorem textOf_append (as bs : List Item) : textOf (as ++ bs) = textOf as ++ textOf bs :=
  List.flatMap_append

/-- How many characters several items have. -/
def width (items : List Item) : Nat := (textOf items).length

@[simp]
theorem width_nil : width [] = 0 := rfl

@[simp]
theorem width_cons (item : Item) (items : List Item) :
    width (item :: items) = item.text.length + width items := by
  simp [width]

@[simp]
theorem width_append (as bs : List Item) : width (as ++ bs) = width as + width bs := by
  simp [width]

/-- Whether an item is padding. -/
def isPadding (item : Item) : Bool := item.role = .comment || item.role = .blank

/-- The lexeme that an item at an offset is, if it is a comment or a string. -/
def lexeme? (offset : Nat) (item : Item) : Option Lexeme :=
  item.role.lexemeKind?.map fun kind => ⟨kind, offset, offset + item.text.length⟩

/-- The comments and strings among items from an offset on. -/
def lexemes (offset : Nat) : List Item → List Lexeme
  | [] => []
  | item :: items => (item.lexeme? offset).toList ++ lexemes (offset + item.text.length) items

@[simp]
theorem lexemes_append (offset : Nat) (as bs : List Item) :
    lexemes offset (as ++ bs) = lexemes offset as ++ lexemes (offset + width as) bs := by
  induction as generalizing offset with
  | nil => rfl
  | cons a as ih => simp [lexemes, ih, Nat.add_assoc]

end Item

namespace Tree

mutual

/-- The items of a tree are its text. -/
theorem textOf_items (role : Role) : (t : Tree) → Item.textOf (t.items role) = t.text
  | chars taken => by simp [items, text]
  | node rule parts => by
      rw [items]
      split
      · simp [text]
      · exact textOf_itemsOfAll _ parts

theorem textOf_itemsOfAll (role : Role) : (parts : List Tree) →
    Item.textOf (itemsOfAll role parts) = textOfAll parts
  | [] => rfl
  | part :: parts => by
      rw [itemsOfAll, Item.textOf_append, textOf_items role part, textOf_itemsOfAll role parts]
      rfl

end

end Tree

/-! ## Comments and strings -/

namespace Dialect

/-- The rules inside a lexical one. -/
def lexicalParts : List String := ["keyword", "decimal", "hexadecimal"] ++ lexemeRules

/-- Lexical rules lead only to parts of lexical ones, take something and are reported where they
begin, and only comments are quiet. -/
def lexical (rule : Rule) : Bool :=
  (!((Role.ofRule? rule.name).isSome || lexicalParts.contains rule.name) ||
      rule.body.callsWithin lexicalParts) &&
    (!(Role.ofRule? rule.name).isSome ||
      !rule.anchored && !rule.body.nullable (traits pico8).nullable) &&
    (!rule.quiet || rule.name == "comment")

theorem lexical_rules : (rules pico8).all lexical = true := by
  decide

variable {rule : Rule} {role : Role} {parts : List Tree}

theorem not_watches_of_lexicalParts {name : String} (h : lexicalParts.contains name = true) :
    Recorder.watches name = false := by
  have hall : lexicalParts.all (fun name => !Recorder.watches name) = true := by decide
  simpa using List.all_eq_true.mp hall name (List.contains_iff_mem.mp h)

/-- The nodes inside a lexical one are parts of lexical rules. -/
theorem lexicalParts_of_mem_nodes (h : Role.ofRule? rule.name = some role)
    (hderived : Tree.Derived [.node rule parts]) :
    ∀ n ∈ Tree.nodesOfAll parts, lexicalParts.contains n.1.name = true := by
  obtain ⟨hrule, s, rest, hmatch⟩ := hderived.node
  have hcalls : ∀ rule ∈ rules pico8,
      ((Role.ofRule? rule.name).isSome || lexicalParts.contains rule.name) = true →
        rule.body.callsWithin lexicalParts = true := by
    intro rule hmem hname
    have hlexical := List.all_eq_true.mp lexical_rules rule hmem
    simp only [lexical, Bool.and_eq_true, hname, Bool.not_true, Bool.false_or] at hlexical
    exact hlexical.1.1
  refine hmatch.names_within (fun other hother hname => ?_) (hcalls rule hrule (by simp [h]))
  exact hcalls other (rules_grammar pico8 ▸ hother) (by rw [hname, Bool.or_true])

/-- The recorder looks out for nothing inside a lexical rule. -/
theorem not_watches_of_lexical (h : Role.ofRule? rule.name = some role)
    (hderived : Tree.Derived [.node rule parts]) {w : Walk} (hw : w.Anchored) :
    ∀ c ∈ w.capturesOfAll parts, Recorder.watches c.rule = false := by
  intro c hc
  obtain ⟨n, hn, _, _, -, hshows⟩ := Walk.node_of_mem_capturesOfAll hw parts c hc
  rw [hshows.rule_eq]
  exact not_watches_of_lexicalParts (lexicalParts_of_mem_nodes h hderived n hn)

theorem not_quiet_of_none (hrule : rule ∈ rules pico8) (h : Role.ofRule? rule.name = none) :
    rule.quiet = false := by
  have hlexical := List.all_eq_true.mp lexical_rules rule hrule
  simp only [lexical, Bool.and_eq_true, Bool.or_eq_true, Bool.not_eq_true', beq_iff_eq] at hlexical
  rcases hlexical.2 with hquiet | hname
  · exact hquiet
  · rw [hname] at h
    cases h

/-- A lexical rule is a lexeme just where its item is one. -/
theorem lexeme?_of_lexical (hrule : rule ∈ rules pico8) (h : Role.ofRule? rule.name = some role)
    {w : Walk} (hw : w.Anchored) :
    ((w.pass (.node rule parts)).capture rule w.offset).lexeme? =
      Item.lexeme? w.offset ⟨role, Tree.textOfAll parts⟩ := by
  have hlexical := List.all_eq_true.mp lexical_rules rule hrule
  simp only [lexical, Bool.and_eq_true, h, Option.isSome_some, Bool.not_true, Bool.false_or,
    Bool.not_eq_true'] at hlexical
  have hshows := Walk.shows_capture hw rule parts
  have hstart := hshows.start_eq hlexical.1.2.1
  have hstop := hshows.stop_eq
  rw [hshows.ruleStart_eq] at hstart hstop
  rw [Capture.lexeme?, hshows.rule_eq, hstart, hstop, Role.lexemeKind?_eq, h]
  rfl

mutual

/-- The lexemes captured of a tree are those among its items. -/
theorem lexemes_of_captures {w : Walk} (hw : w.Anchored) (hquiet : w.quiet = 0) {role : Role}
    (hrole : role.isLoose = true) : (t : Tree) → Tree.Derived [t] →
      (w.captures t).filterMap Capture.lexeme? = Item.lexemes w.offset (t.items role)
  | .chars taken, _ => by
      simp [Walk.captures, Tree.items, Item.lexemes, Item.lexeme?,
        Role.lexemeKind?_of_isLoose hrole]
  | .node rule parts, hderived => by
      have hrule := hderived.node.1
      rw [Walk.captures, if_pos hquiet, List.filterMap_append]
      cases hlexical : Role.ofRule? rule.name with
      | some lexical =>
          have hinner : ((w.enter rule).capturesOfAll parts).filterMap Capture.lexeme? = [] := by
            rw [List.filterMap_eq_nil_iff]
            intro c hc
            have hnone := not_watches_of_lexical hlexical hderived (hw.enter rule) c hc
            simp only [Recorder.watches, Bool.or_eq_false_iff, Option.isSome_eq_false_iff,
              Option.isNone_iff_eq_none] at hnone
            rw [Capture.lexeme?, hnone.2]
            rfl
          rw [hinner, Tree.items_of_lexical hlexical, Item.lexemes, List.nil_append,
            ← lexeme?_of_lexical hrule hlexical hw]
          cases hown : ((w.pass (.node rule parts)).capture rule w.offset).lexeme? <;>
            simp [hown, Item.lexemes]
      | none =>
          have hown : ((w.pass (.node rule parts)).capture rule w.offset).lexeme? = none := by
            rw [Capture.lexeme?, Walk.rule_capture, Role.lexemeKind?_eq, hlexical]
            rfl
          have henter : (w.enter rule).quiet = 0 := by
            simp [Walk.enter, not_quiet_of_none hrule hlexical, hquiet]
          rw [List.filterMap_cons_none hown, List.filterMap_nil, List.append_nil,
            Tree.items_of_none hlexical]
          exact lexemes_of_capturesOfAll (hw.enter rule) henter (Role.isLoose_inside hrole rule)
            parts hderived.inner

theorem lexemes_of_capturesOfAll {w : Walk} (hw : w.Anchored) (hquiet : w.quiet = 0) {role : Role}
    (hrole : role.isLoose = true) : (parts : List Tree) → Tree.Derived parts →
      (w.capturesOfAll parts).filterMap Capture.lexeme? =
        Item.lexemes w.offset (Tree.itemsOfAll role parts)
  | [], _ => rfl
  | part :: parts, hderived => by
      have hpass : (w.pass part).quiet = 0 := by rw [Walk.quiet_pass, hquiet]
      rw [Walk.capturesOfAll, List.filterMap_append,
        lexemes_of_captures hw hquiet hrole part hderived.head,
        lexemes_of_capturesOfAll (hw.pass part) hpass hrole parts hderived.tail, Tree.itemsOfAll,
        Item.lexemes_append, Walk.offset_pass, Item.width, Tree.textOf_items]

end

theorem text_ne_nil_of_lexical (hrule : rule ∈ rules pico8) (h : Role.ofRule? rule.name = some role)
    {s rest : List Char} (hmatch : Match pico8.grammar rule.body s parts rest) :
    Tree.textOfAll parts ≠ [] := by
  have hlexical := List.all_eq_true.mp lexical_rules rule hrule
  simp only [lexical, Bool.and_eq_true, h, Option.isSome_some, Bool.not_true, Bool.false_or,
    Bool.not_eq_true'] at hlexical
  exact text_ne_nil_of_match rule hlexical.1.2.2 hmatch

/-- Every item has a character. -/
theorem text_ne_nil_of_mem_items {p : Pattern} (hp : p.terminalsAll Terminal.takesSome = true)
    {s rest : List Char} (h : Derives pico8.grammar p s (.matched parts rest)) (role : Role) :
    ∀ item ∈ Tree.itemsOfAll role parts, item.text ≠ [] := by
  have hrules : ∀ rule ∈ pico8.grammar.rules, rule.body.terminalsAll Terminal.takesSome = true :=
    fun rule hrule => takesSome_of_mem (rules_grammar pico8 ▸ hrule)
  refine Derives.of_parts
    (P := fun parts _ _ => ∀ role, ∀ item ∈ Tree.itemsOfAll role parts, item.text ≠ [])
    hrules ?nil ?append ?taken ?passed ?node hp h role
  case nil => exact fun _ _ _ h => absurd h List.not_mem_nil
  case append =>
    intro as bs _ _ _ has hbs role
    rw [Tree.itemsOfAll_append, List.forall_mem_append]
    exact ⟨has role, hbs role⟩
  case taken =>
    intro t s count ht hscan role item hitem
    obtain rfl := List.mem_singleton.mp hitem
    exact Terminal.take_ne_nil ht hscan
  case passed =>
    intro c s role item hitem
    obtain rfl := List.mem_singleton.mp hitem
    exact List.cons_ne_nil c []
  case node =>
    intro name rule inner s rest found hbody hinner role
    rw [Tree.itemsOfAll, Tree.itemsOfAll, List.append_nil]
    cases hlexical : Role.ofRule? rule.name with
    | none =>
        rw [Tree.items_of_none hlexical]
        exact hinner _
    | some lexical =>
        have hrule : rule ∈ rules pico8 := rules_grammar pico8 ▸ Grammar.mem_of_rule? found
        rw [Tree.items_of_lexical hlexical]
        intro item hitem
        obtain rfl := List.mem_singleton.mp hitem
        exact text_ne_nil_of_lexical hrule hlexical hbody.toMatch

end Dialect

namespace Item

/-- The comments and strings of items lie where the items do. -/
theorem bounds_of_mem_lexemes {offset : Nat} {items : List Item}
    (hitems : ∀ item ∈ items, item.text ≠ []) : ∀ lexeme ∈ lexemes offset items,
      (offset : Int) ≤ lexeme.offset ∧ lexeme.offset < lexeme.stop ∧
        lexeme.stop ≤ (offset + width items : Nat) := by
  induction items generalizing offset with
  | nil => exact fun _ h => absurd h List.not_mem_nil
  | cons item items ih =>
      obtain ⟨hitem, hothers⟩ := List.forall_mem_cons.mp hitems
      have hpos := List.length_pos_iff.mpr hitem
      intro lexeme hlexeme
      rw [width_cons]
      rcases List.mem_append.mp hlexeme with hlexeme | hlexeme
      · obtain ⟨kind, -, rfl⟩ := Option.map_eq_some_iff.mp (Option.mem_toList.mp hlexeme)
        refine ⟨Int.le_refl _, ?_, ?_⟩
        · change (offset : Int) < offset + item.text.length
          omega
        · change (offset + item.text.length : Int) ≤ _
          omega
      · have hbounds := ih hothers lexeme hlexeme
        omega

/-- The comments and strings of items come one after the other. -/
theorem pairwise_lexemes {offset : Nat} {items : List Item}
    (hitems : ∀ item ∈ items, item.text ≠ []) :
    (lexemes offset items).Pairwise fun a b => a.offset < b.offset := by
  induction items generalizing offset with
  | nil => exact List.Pairwise.nil
  | cons item items ih =>
      obtain ⟨hitem, hothers⟩ := List.forall_mem_cons.mp hitems
      have hpos := List.length_pos_iff.mpr hitem
      refine List.pairwise_append.mpr ⟨?_, ih hothers, fun a ha b hb => ?_⟩
      · cases item.lexeme? offset <;> simp
      · obtain ⟨kind, -, rfl⟩ := Option.map_eq_some_iff.mp (Option.mem_toList.mp ha)
        have hbounds := bounds_of_mem_lexemes hothers b hb
        change (offset : Int) < b.offset
        omega

end Item

/-- The recorder holds the comments and strings of the text, in order. -/
theorem Dialect.toList_lexemes {source : Source} {recorder : Recorder} {tree : Tree}
    (h : Derives pico8.grammar (.rule rootName) source.chars (.matched [tree] []))
    (hconfirms : recorder.Confirms source tree) :
    recorder.lexemes.toList = Item.lexemes 0 (tree.items .symbol) := by
  have hlexemes : (Walk.initial.captures tree).filterMap Capture.lexeme? =
      Item.lexemes 0 (tree.items .symbol) :=
    lexemes_of_captures anchored_initial rfl rfl tree h.toMatch.derived
  have hitems : ∀ item ∈ tree.items .symbol, item.text ≠ [] := by
    simpa [Tree.itemsOfAll] using text_ne_nil_of_mem_items rfl h .symbol
  refine List.Perm.eq_of_pairwise (fun a b _ _ hab hba => ?_) hconfirms.lexemes_lt
    (Item.pairwise_lexemes hitems) ?_
  · omega
  · rw [← hlexemes]
    exact hconfirms.lexemes_perm

end CartLua
