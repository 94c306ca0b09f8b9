import CartLua.Proofs.Items.Desugared
import CartLua.Proofs.Items.Targets

/-!
# The occurrences among the items

The reader of a derivation comes across the occurrences of a text in the order in which they
end.  Here each of them is found among the items: a comparison is an item of its own, and a
compound assignment begins with the chain that holds its target and ends with the last item of
its value that is no padding.
-/

namespace CartLua

open Dialect

/-! ## Occurrences -/

/-- The occurrence of a capture, if it is one that is desugared. -/
def Recorder.sugar? (recorder : Recorder) (source : Source) (c : Capture) : Option Occurrence :=
  match OccurrenceKind.ofName? c.rule with
  | some .shortIf => none
  | some kind => some (recorder.occurrence source kind c)
  | none => none

namespace Walk

/-- Whether the captures of some items are the occurrences by which the items are written. -/
def Accounts (recorder : Recorder) (source : Source) (w : Walk) (items : List Item)
    (cs : List Capture) : Prop :=
  ∃ os ws, Desugars recorder.lexemes.toList w.offset items os ws ∧
    os.Perm (cs.filterMap (recorder.sugar? source))

/-- Whether items end with a compound assignment whose target goes on before them: up to its
operator they belong to the target. -/
structure Opens (recorder : Recorder) (source : Source) (w : Walk) (items : List Item)
    (cs : List Capture) (target value padding : List Item) (inTarget inValue : List Occurrence)
    (mark : Char) (c : Capture) : Prop where
  items_eq : items = target ++ ⟨.extension, [mark, '=']⟩ :: (value ++ padding)
  mark_mem : mark ∈ Desugar.operators
  ends : ∀ item ∈ value.getLast?, item.isPadding = false
  padding : ∀ item ∈ padding, item.isPadding = true
  inner : ∃ ws, Desugars recorder.lexemes.toList w.offset target inTarget ws
  right : ∃ ws, Desugars recorder.lexemes.toList (w.offset + Item.width target + 2) value inValue ws
  perm : (cs.filterMap (recorder.sugar? source)).Perm
    (recorder.occurrence source .reassignment c :: (inTarget ++ inValue))
  start_eq : ∀ a as, w.anchors = a :: as → c.start = a
  ruleStart_eq : c.ruleStart = (w.offset + Item.width target : Nat)
  tokenEnd_eq : c.tokenEnd = (w.offset + Item.width target + 2 + Item.width value : Nat)

variable {recorder : Recorder} {source : Source} {w v : Walk} {items more : List Item}
  {cs ds : List Capture}

/-- Items without an operator of the extended dialect have no occurrence. -/
theorem accounts_of_plain (hitems : ∀ item ∈ items, item.role ≠ .extension)
    (hcs : cs.filterMap (recorder.sugar? source) = []) : w.Accounts recorder source items cs :=
  ⟨[], _, .of_plain hitems w.offset, by rw [hcs]⟩

theorem Accounts.append (h : w.Accounts recorder source items cs)
    (hmore : v.Accounts recorder source more ds)
    (hoffset : v.offset = w.offset + Item.width items) :
    w.Accounts recorder source (items ++ more) (cs ++ ds) := by
  obtain ⟨os, ws, hos, hperm⟩ := h
  obtain ⟨others, vs, hothers, hpermOthers⟩ := hmore
  rw [hoffset] at hothers
  refine ⟨os ++ others, ws ++ vs, hos.append hothers, ?_⟩
  rw [List.filterMap_append]
  exact hperm.append hpermOthers

/-- What lies before the items of a target belongs to the target. -/
theorem Accounts.opens {target value padding : List Item} {inTarget inValue : List Occurrence}
    {mark : Char} {c : Capture} (h : w.Accounts recorder source items cs)
    (hmore : v.Opens recorder source more ds target value padding inTarget inValue mark c)
    (hoffset : v.offset = w.offset + Item.width items) (hanchors : v.anchors = w.anchors) :
    ∃ inTarget, w.Opens recorder source (items ++ more) (cs ++ ds) (items ++ target) value padding
      inTarget inValue mark c := by
  obtain ⟨os, ws, hos, hperm⟩ := h
  obtain ⟨first, hfirst⟩ := hmore.inner
  have hright := hmore.right
  have hstart := hmore.start_eq
  have hruleStart := hmore.ruleStart_eq
  have htokenEnd := hmore.tokenEnd_eq
  rw [hoffset] at hfirst hright hruleStart htokenEnd
  rw [hanchors] at hstart
  refine ⟨os ++ inTarget, ?_, hmore.mark_mem, hmore.ends, hmore.padding,
    ⟨_, hos.append hfirst⟩, ?_, ?_, hstart, ?_, ?_⟩
  · rw [hmore.items_eq, List.append_assoc]
  · rwa [Item.width_append, ← Nat.add_assoc]
  · rw [List.filterMap_append]
    refine (hperm.symm.append hmore.perm).trans (List.perm_middle.trans ?_)
    rw [List.append_assoc]
  · rw [hruleStart, Item.width_append, Nat.add_assoc]
  · rw [htokenEnd, Item.width_append, ← Nat.add_assoc w.offset]

/-- Whether trees account for their occurrences, with a compound assignment at their end if they
report one from an anchor outside. -/
structure Told (recorder : Recorder) (source : Source) (w : Walk) (role : Role)
    (parts : List Tree) : Prop where
  accounts : Tree.opensAny parts = false →
    w.Accounts recorder source (Tree.itemsOfAll role parts) (w.capturesOfAll parts)
  opens : Tree.opensAny parts = true → ∃ value padding inTarget inValue mark c,
    w.Opens recorder source (Tree.itemsOfAll role parts) (w.capturesOfAll parts)
      (Tree.targetOfAll role parts) value padding inTarget inValue mark c

variable {role : Role}

theorem Told.of_accounts {t : Tree} (hclosed : t.opens = false)
    (h : w.Accounts recorder source (t.items role) (w.captures t)) :
    w.Told recorder source role [t] where
  accounts _ := by simpa [Tree.itemsOfAll, capturesOfAll] using h
  opens hopens := by simp [Tree.opensAny, hclosed] at hopens

theorem Told.nil : w.Told recorder source role [] where
  accounts _ := accounts_of_plain (fun _ h => absurd h List.not_mem_nil) rfl
  opens h := by cases h

/-- Only the last of some trees reports from an anchor outside, and those before it belong to its
target. -/
theorem Told.cons {part : Tree} {parts : List Tree} (hlast : Tree.opensLast (part :: parts) = true)
    (hpart : w.Told recorder source role [part])
    (hparts : (w.pass part).Told recorder source role parts) :
    w.Told recorder source role (part :: parts) := by
  have hoffset : (w.pass part).offset = w.offset + Item.width (part.items role) := by
    rw [offset_pass, Item.width, Tree.textOf_items]
  have hfirst : Tree.opensAny [part] = false →
      w.Accounts recorder source (part.items role) (w.captures part) := by
    intro hclosed
    simpa [Tree.itemsOfAll, capturesOfAll] using hpart.accounts hclosed
  simp only [Tree.opensLast, Bool.and_eq_true, Bool.or_eq_true, Bool.not_eq_true'] at hlast
  constructor
  · intro hclosed
    simp only [Tree.opensAny, Bool.or_eq_false_iff] at hclosed
    exact (hfirst (by simp [Tree.opensAny, hclosed.1])).append (hparts.accounts hclosed.2) hoffset
  · intro hopens
    rcases hlast.1 with hempty | hclosed
    · obtain rfl := List.isEmpty_iff.mp hempty
      exact hpart.opens hopens
    · have hothers : Tree.opensAny parts = true := by simpa [Tree.opensAny, hclosed] using hopens
      obtain ⟨value, padding, inTarget, inValue, mark, c, hmore⟩ := hparts.opens hothers
      obtain ⟨inTarget, hall⟩ := (hfirst (by simp [Tree.opensAny, hclosed])).opens hmore hoffset
        (anchors_pass w part)
      rw [Tree.targetOfAll_cons hothers]
      exact ⟨value, padding, inTarget, inValue, mark, c, hall⟩

end Walk

/-- Whether a row of trees has no comment and no operator of a compound assignment at its top. -/
def Tree.Bound (parts : List Tree) : Prop :=
  ∀ rule inner, Tree.node rule inner ∈ parts → rule.name ≠ "comment" ∧
    rule.name ≠ "operators_reassign"

namespace Dialect

theorem bound_of_match {rule : Rule} (hrule : rule ∈ rules pico8) (hsep : rule.name ≠ "sep")
    (hassign : rule.name ≠ "reassignment") {s rest : List Char} {parts : List Tree}
    (hmatch : Match pico8.grammar rule.body s parts rest) : Tree.Bound parts :=
  fun other inner hmem =>
    ⟨name_ne_of_usedOnlyBy usedOnlyBy_comment hrule hsep hmatch other inner hmem,
      name_ne_of_usedOnlyBy usedOnlyBy_operatorsReassign hrule hassign hmatch other inner hmem⟩

variable {recorder : Recorder} {source : Source}

/-- A rule whose capture is not desugared adds nothing to its parts. -/
theorem filterMap_captures_node {w : Walk} {rule : Rule} {parts : List Tree}
    (hname : OccurrenceKind.ofName? rule.name = none ∨
      OccurrenceKind.ofName? rule.name = some .shortIf) :
    (w.captures (.node rule parts)).filterMap (recorder.sugar? source) =
      ((w.enter rule).capturesOfAll parts).filterMap (recorder.sugar? source) := by
  have hown : ∀ c : Capture, c.rule = rule.name → recorder.sugar? source c = none := by
    intro c hc
    rw [Recorder.sugar?, hc]
    rcases hname with hname | hname <;> rw [hname]
  rw [Walk.captures, List.filterMap_append]
  split
  · rw [List.filterMap_cons_none (hown _ rfl), List.filterMap_nil, List.append_nil]
  · rw [List.filterMap_nil, List.append_nil]

/-- A rule with occurrences only inside it accounts for them as its parts do. -/
theorem accounts_of_inner {w : Walk} {rule : Rule} {parts : List Tree} {role : Role}
    (hlexical : Role.ofRule? rule.name = none)
    (hname : OccurrenceKind.ofName? rule.name = none ∨
      OccurrenceKind.ofName? rule.name = some .shortIf)
    (h : (w.enter rule).Accounts recorder source (Tree.itemsOfAll (role.inside rule) parts)
      ((w.enter rule).capturesOfAll parts)) :
    w.Accounts recorder source ((Tree.node rule parts).items role)
      (w.captures (.node rule parts)) := by
  obtain ⟨os, ws, hos, hperm⟩ := h
  refine ⟨os, ws, ?_, ?_⟩
  · rw [Tree.items_of_none hlexical]
    exact hos
  · rwa [filterMap_captures_node hname]

/-- What a rule reports from an anchor outside, its parts report. -/
theorem opens_of_inner {w : Walk} {rule : Rule} {parts : List Tree} {role : Role}
    {target value padding : List Item} {inTarget inValue : List Occurrence} {mark : Char}
    {c : Capture}
    (hlexical : Role.ofRule? rule.name = none) (hanchor : rule.anchor = false)
    (hname : OccurrenceKind.ofName? rule.name = none)
    (h : (w.enter rule).Opens recorder source (Tree.itemsOfAll (role.inside rule) parts)
      ((w.enter rule).capturesOfAll parts) target value padding inTarget inValue mark c) :
    w.Opens recorder source ((Tree.node rule parts).items role) (w.captures (.node rule parts))
      target value padding inTarget inValue mark c where
  items_eq := by rw [Tree.items_of_none hlexical, h.items_eq]
  mark_mem := h.mark_mem
  ends := h.ends
  padding := h.padding
  inner := h.inner
  right := h.right
  perm := by
    rw [filterMap_captures_node (.inl hname)]
    exact h.perm
  start_eq := by simpa [Walk.enter, hanchor] using h.start_eq
  ruleStart_eq := h.ruleStart_eq
  tokenEnd_eq := h.tokenEnd_eq

/-- A compound assignment is its operator, with padding and a value behind it. -/
theorem of_wholeReassignment {s rest : List Char} {parts : List Tree}
    (h : Match pico8.grammar reassignment.body s parts rest) :
    ∃ mark others, mark ∈ Desugar.operators ∧
      parts = .node operatorsReassign [.chars [mark, '=']] :: others ∧
      ∃ t, Match pico8.grammar (.seq [gap, .call "expr_list_must"]) t others rest := by
  simp only [reassignment, Pattern.inOrder] at h
  rw [Match.seq_cons_iff] at h
  obtain ⟨_, _, others, hfirst, hothers, rfl⟩ := h
  have hmem : operatorsReassign ∈ rules pico8 := by
    simp [rules, chainStatementRules, extension]
  obtain ⟨operator, rfl, hoperator⟩ := of_call hmem hfirst
  obtain ⟨mark, hmark, rfl⟩ := of_operatorsReassign hoperator
  exact ⟨mark, others, List.contains_iff_mem.mp hmark, rfl, _, hothers⟩

/-! ## The whole derivation -/

theorem ofRule?_eq_extension_iff {name : String} : Role.ofRule? name = some .extension ↔
    name = OccurrenceKind.notEqual.name ∨ name = "operators_reassign" := by
  constructor
  · intro h
    rw [Role.ofRule?] at h
    iterate 4
      split at h
      · cases h
    split at h
    · rename_i hname
      simpa using hname
    · split at h <;> cases h
  · rintro (rfl | rfl) <;> rfl

/-- Only the comparison is a lexical rule with an occurrence. -/
theorem ofName?_of_lexical {name : String} {role : Role} (h : Role.ofRule? name = some role)
    (hrole : role ≠ .extension) : OccurrenceKind.ofName? name = none := by
  cases hkind : OccurrenceKind.ofName? name with
  | none => rfl
  | some kind =>
      obtain rfl := Recorder.ofName?_eq_some.mp hkind
      cases kind with
      | notEqual =>
          rw [ofRule?_eq_extension_iff.mpr (.inl rfl)] at h
          exact absurd (Option.some.inj h).symm hrole
      | _ => cases h

/-- Captures of rules that the recorder does not look out for are no occurrences. -/
theorem filterMap_sugar?_eq_nil {cs : List Capture}
    (h : ∀ c ∈ cs, OccurrenceKind.ofName? c.rule = none) :
    cs.filterMap (recorder.sugar? source) = [] := by
  rw [List.filterMap_eq_nil_iff]
  intro c hc
  rw [Recorder.sugar?, h c hc]

variable {w : Walk} {role : Role} {rule : Rule} {parts : List Tree}

/-- The comparison of the dialect accounts for itself. -/
theorem accounts_of_notEqual (hw : w.Plain) :
    w.Accounts recorder source ((Tree.node operatorNotEqual [.chars ['!', '=']]).items role)
      (w.captures (.node operatorNotEqual [.chars ['!', '=']])) := by
  have htokenEnd :
      (w.pass (.node operatorNotEqual [.chars ['!', '=']])).tokenEnd = w.offset + 2 := by
    simp [Walk.pass, Walk.passAll, Walk.advance, Walk.enter, Walk.leave, operatorNotEqual,
      hw.padding]
  have htaken : w.offset ≤ (w.pass (.node operatorNotEqual [.chars ['!', '=']])).tokenEnd := by
    omega
  have hstop := Walk.tokenEnd_capture hw htaken
  generalize hc : (w.pass (.node operatorNotEqual [.chars ['!', '=']])).capture operatorNotEqual
    w.offset = c at hstop
  have hcaptures : w.captures (.node operatorNotEqual [.chars ['!', '=']]) = [c] := by
    rw [Walk.captures, if_pos hw.quiet, hc]
    rfl
  have hstart : c.start = w.offset := hc ▸ rfl
  have hsugar : recorder.sugar? source c = some (recorder.occurrence source .notEqual c) := hc ▸ rfl
  rw [Tree.items_of_lexical (show Role.ofRule? _ = some .extension from rfl), hcaptures]
  refine ⟨[recorder.occurrence source .notEqual c], _, .comparison rfl hstart ?_ (.nil _), ?_⟩
  · rw [stop_occurrence, hstop, htokenEnd]
    rfl
  · rw [List.filterMap_cons_some hsugar]
    rfl

/-- Lexical rules account for themselves. -/
theorem accounts_of_lexical (hw : w.Plain) {lexical : Role}
    (hlexical : Role.ofRule? rule.name = some lexical) (hderived : Tree.Derived [.node rule parts])
    (hname : rule.name ≠ "operators_reassign") :
    w.Accounts recorder source ((Tree.node rule parts).items role)
      (w.captures (.node rule parts)) := by
  obtain ⟨hrule, s, rest, hmatch⟩ := hderived.node
  by_cases hextension : lexical = .extension
  · subst hextension
    obtain rfl : rule = operatorNotEqual :=
      eq_of_name_eq hrule (by simp [rules, tierRules, extension])
        ((ofRule?_eq_extension_iff.mp hlexical).resolve_right hname)
    rw [of_operatorNotEqual hmatch]
    exact accounts_of_notEqual hw
  · apply Walk.accounts_of_plain
    · rw [Tree.items_of_lexical hlexical]
      simpa using hextension
    · rw [filterMap_captures_node (.inl (ofName?_of_lexical hlexical hextension))]
      apply filterMap_sugar?_eq_nil
      intro c hc
      have hnone := not_watches_of_lexical hlexical hderived (hw.anchored.enter rule) c hc
      simp only [Recorder.watches, Bool.or_eq_false_iff, Option.isSome_eq_false_iff,
        Option.isNone_iff_eq_none] at hnone
      exact hnone.1

/-- Padding accounts for itself. -/
theorem accounts_of_padding (hw : w.Plain) (hderived : Tree.Derived [.node rule parts])
    (hpadding : rule.padding = true) :
    w.Accounts recorder source ((Tree.node rule parts).items role)
      (w.captures (.node rule parts)) := by
  have hname : paddingRules.contains rule.name = true :=
    padding_of_mem hderived.node.1 (by rw [hpadding, Bool.true_or])
  apply Walk.accounts_of_plain
  · intro item hitem hextension
    have hpadded := isPadding_of_padding hderived hpadding role item hitem
    rw [Item.isPadding, hextension] at hpadded
    cases hpadded
  · apply filterMap_sugar?_eq_nil
    have hnone := occurrences_of_padding hw.anchored hderived hname
    rw [Walk.occurrences, List.filter_eq_nil_iff] at hnone
    intro c hc
    have hcapture := hnone c (by simpa [Walk.capturesOfAll] using hc)
    simpa [Capture.isOccurrence] using hcapture

/-- A compound assignment opens with its operator, if its value accounts for itself. -/
theorem opens_of_reassignment (hw : w.Plain) (hrole : role = .symbol ∨ role = .raw) {mark : Char}
    {others : List Tree} (hmark : mark ∈ Desugar.operators)
    (hderived : Tree.Derived
      [.node reassignment (.node operatorsReassign [.chars [mark, '=']] :: others)])
    (hothers : (w.pass (.node operatorsReassign [.chars [mark, '=']])).Accounts recorder source
      (Tree.itemsOfAll role others)
      ((w.pass (.node operatorsReassign [.chars [mark, '=']])).capturesOfAll others)) :
    ∃ value padding inTarget inValue c, w.Opens recorder source
      ((Tree.node reassignment (.node operatorsReassign [.chars [mark, '=']] :: others)).items role)
      (w.captures (.node reassignment (.node operatorsReassign [.chars [mark, '=']] :: others)))
      [] value padding inTarget inValue mark c := by
  obtain ⟨hrule, s, rest, hmatch⟩ := hderived.node
  have hinside : role.inside reassignment = role := by
    rw [Role.inside, if_neg (by decide), if_neg (by decide)]
  have hitems : (Tree.node reassignment
      (.node operatorsReassign [.chars [mark, '=']] :: others)).items role =
        ⟨.extension, [mark, '=']⟩ :: Tree.itemsOfAll role others := by
    rw [Tree.items_of_none rfl, hinside, Tree.itemsOfAll,
      Tree.items_of_lexical (show Role.ofRule? _ = some .extension from rfl)]
    rfl
  have htokenEnd := tokenEnd_pass_eq hw.padding hrole _ hderived (by
    rintro _ _ ⟨⟩
    decide)
  rw [hitems] at htokenEnd ⊢
  obtain ⟨os, ws, hos, hperm⟩ := hothers
  obtain ⟨value, padding, hsplit, hpadding, hends⟩ :=
    Item.exists_padding (Tree.itemsOfAll role others)
  rw [hsplit] at htokenEnd hos ⊢
  obtain ⟨vs, hvalue⟩ := hos.of_append_padding hpadding
  have hlast : (w.pass (.node reassignment
      (.node operatorsReassign [.chars [mark, '=']] :: others))).tokenEnd =
        w.offset + 2 + Item.width value := by
    rw [htokenEnd, Item.lastEnd]
    exact Item.lastEnd_of_ends hends hpadding (w.offset + 2)
  have hstop := Walk.tokenEnd_capture hw (by rw [hlast]; omega)
  generalize hc : (w.pass (.node reassignment (.node operatorsReassign [.chars [mark, '=']] ::
    others))).capture reassignment w.offset = c at hstop
  have hcaptures : w.captures (.node reassignment
      (.node operatorsReassign [.chars [mark, '=']] :: others)) =
        w.captures (.node operatorsReassign [.chars [mark, '=']]) ++
          (w.pass (.node operatorsReassign [.chars [mark, '=']])).capturesOfAll others ++ [c] := by
    rw [Walk.captures, if_pos hw.quiet, hc]
    rfl
  have htoken : (w.captures (.node operatorsReassign [.chars [mark, '=']])).filterMap
      (recorder.sugar? source) = [] := filterMap_captures_node (.inl (by decide))
  have hsugar : recorder.sugar? source c = some (recorder.occurrence source .reassignment c) :=
    hc ▸ rfl
  refine ⟨value, padding, [], os, c, rfl, hmark, hends, hpadding, ⟨[], .nil _⟩, ⟨vs, hvalue⟩, ?_,
    ?_, hc ▸ rfl, ?_⟩
  · rw [hcaptures, List.filterMap_append, List.filterMap_append, htoken,
      List.filterMap_cons_some hsugar]
    exact (List.perm_append_singleton _ _).trans (hperm.symm.cons _)
  · intro a as hanchors
    rw [← hc, Walk.start_capture, Walk.anchors_pass, hanchors]
    rfl
  · rw [hstop, hlast]
    rfl

/-- The head of a chain is a word or begins with a bracket. -/
theorem head_items_of_chainStatement {s rest : List Char}
    (hmatch : Match pico8.grammar chainStatement.body s parts rest) (role : Role) :
    ∃ item items, Tree.itemsOfAll role parts = item :: items ∧
      (item.role = .word ∨ item.text = ['(']) := by
  obtain ⟨head, first, others, hhead, rfl, _, _, hfirst⟩ := of_chainStatement hmatch
  rcases hhead with rfl | rfl
  · exact ⟨_, _, by rw [Tree.itemsOfAll,
      Tree.items_of_lexical (show Role.ofRule? _ = some .word from rfl)]; rfl, .inl rfl⟩
  · obtain ⟨inner, rfl⟩ := of_bracketExpr hfirst
    exact ⟨_, _, by rw [Tree.itemsOfAll, Tree.items_of_none rfl]; rfl, .inr rfl⟩

/-- A statement that begins with a chain accounts for a compound assignment that its parts open. -/
theorem accounts_of_chainStatement (hordered : recorder.lexemes.Ordered)
    (hderived : Tree.Derived [.node chainStatement parts])
    (h : (w.enter chainStatement).Told recorder source (role.inside chainStatement) parts) :
    w.Accounts recorder source ((Tree.node chainStatement parts).items role)
      (w.captures (.node chainStatement parts)) := by
  cases hopens : Tree.opensAny parts with
  | false => exact accounts_of_inner rfl (.inl (by decide)) (h.accounts hopens)
  | true =>
      obtain ⟨value, padding, inTarget, inValue, mark, c, hopen⟩ := h.opens hopens
      have hcloses := closes_of_chainStatement hderived hopens (role.inside chainStatement)
      generalize Tree.targetOfAll (role.inside chainStatement) parts = target at hopen hcloses
      obtain ⟨-, s, rest, hmatch⟩ := hderived.node
      obtain ⟨head, items, hhead, hstarts⟩ := head_items_of_chainStatement hmatch
        (role.inside chainStatement)
      have hstart : c.start = w.offset := hopen.start_eq w.offset w.anchors rfl
      obtain ⟨first, hfirst⟩ := hopen.inner
      obtain ⟨second, hsecond⟩ := hopen.right
      have hlayout : (recorder.occurrence source .reassignment c).layout =
          recorder.lexemes.toList.filter fun lexeme => (w.offset : Int) ≤ lexeme.offset &&
            lexeme.offset < ((w.offset + Item.width target : Nat) : Int) := by
        simp only [Recorder.occurrence, if_pos, hstart, hopen.ruleStart_eq]
        rw [hordered.between_eq_filter, List.filter_filter]
        apply List.filter_congr
        intro lexeme _
        rw [Bool.and_comm]
        rfl
      have htarget : ∃ item ∈ target.head?, item.role = .word ∨ item.text = ['('] := by
        have hsplit := hhead.symm.trans hopen.items_eq
        cases target with
        | nil =>
            obtain rfl := (List.cons.inj hsplit).1
            rcases hstarts with hword | hbracket
            · cases hword
            · cases hbracket
        | cons item target =>
            obtain rfl := (List.cons.inj hsplit).1
            exact ⟨_, rfl, hstarts⟩
      have hpadding : ∀ item ∈ padding, item.role ≠ .extension := by
        intro item hitem hextension
        have hpadded := hopen.padding item hitem
        rw [Item.isPadding, hextension] at hpadded
        cases hpadded
      have hall := Desugars.assignment (o := recorder.occurrence source .reassignment c) rfl hstart
        (congrArg some hopen.ruleStart_eq) ((stop_occurrence _ c).trans hopen.tokenEnd_eq) hlayout
        hopen.mark_mem htarget hcloses hopen.ends hfirst hsecond (.of_plain hpadding _)
      have hitems : (Tree.node chainStatement parts).items role =
          Tree.itemsOfAll (role.inside chainStatement) parts := Tree.items_of_none rfl role parts
      rw [← hopen.items_eq, ← hitems] at hall
      refine ⟨_, _, hall, ?_⟩
      rw [filterMap_captures_node (.inl (by decide)), List.append_nil]
      exact hopen.perm.symm

/-- Whether trees of the dialect below a size account for their occurrences. -/
def ToldBelow (recorder : Recorder) (source : Source) (size : Nat) : Prop :=
  ∀ (w : Walk) (role : Role) (parts : List Tree), w.Plain → role = .symbol ∨ role = .raw →
    sizeOf parts < size → Tree.Derived parts → Tree.Bound parts → Tree.opensLast parts = true →
      w.Told recorder source role parts

variable {size : Nat}

/-- A compound assignment, when smaller trees account for their occurrences. -/
theorem ToldBelow.reassignment (ih : ToldBelow recorder source size) (hw : w.Plain)
    (hrole : role = .symbol ∨ role = .raw) (hsize : sizeOf parts < size)
    (hderived : Tree.Derived [.node reassignment parts]) :
    w.Told recorder source role [.node reassignment parts] := by
  obtain ⟨hrule, s, rest, hmatch⟩ := hderived.node
  have hclosed := closed_of_match Dialect.reassignment (by decide) hmatch
  have hcomment := name_ne_of_usedOnlyBy usedOnlyBy_comment hrule (by decide) hmatch
  obtain ⟨mark, others, hmark, rfl, t, hothers⟩ := of_wholeReassignment hmatch
  rw [Tree.opensAny, Bool.or_eq_false_iff] at hclosed
  simp only [List.cons.sizeOf_spec] at hsize
  have hbound : Tree.Bound others := by
    intro rule inner hmem
    refine ⟨hcomment rule inner (List.mem_cons_of_mem _ hmem), ?_⟩
    have hwithin : ["seps", "expr_list_must"].contains rule.name = true :=
      hothers.calls_within rfl rule inner hmem
    intro hname
    rw [hname] at hwithin
    cases hwithin
  have htold :=
    ih (w.pass (.node operatorsReassign [.chars [mark, '=']])) role others (hw.pass _) hrole
      (by omega) hderived.inner.tail hbound (Tree.opensLast_of_closed hclosed.2)
  constructor
  · intro hnone
    cases hnone
  · intro _
    obtain ⟨value, padding, inTarget, inValue, c, h⟩ :=
      opens_of_reassignment hw hrole hmark hderived (htold.accounts hclosed.2)
    have hnone : (Tree.node Dialect.reassignment
      (.node operatorsReassign [.chars [mark, '=']] :: others)).target role = [] := rfl
    exact ⟨value, padding, inTarget, inValue, mark, c,
      by simpa [Tree.itemsOfAll, Walk.capturesOfAll, hnone] using h⟩

/-- A lexical rule is one item, and no assignment is open in it. -/
theorem told_of_lexical {lexical : Role} (hw : w.Plain)
    (hlexical : Role.ofRule? rule.name = some lexical)
    (hderived : Tree.Derived [.node rule parts]) (hname : rule.name ≠ "operators_reassign") :
    w.Told recorder source role [.node rule parts] := by
  have hnone : ((traits pico8).opening.all fun name => (Role.ofRule? name).isNone) = true := by
    decide
  refine .of_accounts (opens_eq_false hderived ?_) (accounts_of_lexical hw hlexical hderived hname)
  rw [← Bool.not_eq_true]
  intro hmem
  have hrule := List.all_eq_true.mp hnone rule.name (List.contains_iff_mem.mp hmem)
  rw [hlexical] at hrule
  cases hrule

/-- A rule that is neither an item nor an occurrence has what its parts have. -/
theorem told_of_inner (hlexical : Role.ofRule? rule.name = none)
    (hkind : OccurrenceKind.ofName? rule.name = none) (hanchor : rule.anchor = false)
    (hanchored : rule.anchored = false)
    (htold : (w.enter rule).Told recorder source (role.inside rule) parts) :
    w.Told recorder source role [.node rule parts] := by
  have hopens : Tree.opensAny [.node rule parts] = Tree.opensAny parts := by
    simp [Tree.opensAny, Tree.opens, hanchored, hanchor]
  constructor
  · intro hnone
    have hinner := accounts_of_inner hlexical (.inl hkind) (htold.accounts (hopens ▸ hnone))
    simpa [Tree.itemsOfAll, Walk.capturesOfAll] using hinner
  · intro hsome
    obtain ⟨value, padding, inTarget, inValue, mark, c, h⟩ := htold.opens (hopens ▸ hsome)
    have hinner := opens_of_inner hlexical hanchor hkind h
    exact ⟨value, padding, inTarget, inValue, mark, c,
      by simpa [Tree.itemsOfAll, Walk.capturesOfAll, Tree.target, hanchored] using hinner⟩

/-- A rule in a derivation of the dialect, when smaller trees account for their occurrences. -/
theorem ToldBelow.node (ih : ToldBelow recorder source size) (hordered : recorder.lexemes.Ordered)
    (hw : w.Plain) (hrole : role = .symbol ∨ role = .raw) (hsize : sizeOf parts < size)
    (hderived : Tree.Derived [.node rule parts]) (hname : rule.name ≠ "operators_reassign") :
    w.Told recorder source role [.node rule parts] := by
  obtain ⟨hrule, s, rest, hmatch⟩ := hderived.node
  cases hlexical : Role.ofRule? rule.name with
  | some lexical => exact told_of_lexical hw hlexical hderived hname
  | none =>
      by_cases hpadding : rule.padding = true
      · have hnames := padding_of_mem hrule (by rw [hpadding, Bool.true_or])
        have hclosed :
            (paddingRules.all fun name => !(traits pico8).opening.contains name) = true := by
          decide
        have hunopened := List.all_eq_true.mp hclosed rule.name (List.contains_iff_mem.mp hnames)
        exact .of_accounts (opens_eq_false hderived (by simpa using hunopened))
          (accounts_of_padding hw hderived hpadding)
      rw [Bool.not_eq_true] at hpadding
      have henter := hw.enter hpadding (not_quiet_of_none hrule hlexical)
      have hinside : role.inside rule = .symbol ∨ role.inside rule = .raw := by
        rw [Role.inside, if_neg (by simp [hpadding])]
        split
        · exact .inr rfl
        · exact hrole
      have hsep : rule.name ≠ "sep" := by
        intro hsep
        obtain rfl : rule = sep := eq_of_name_eq hrule mem_sep hsep
        cases hpadding
      by_cases hassign : rule.name = OccurrenceKind.reassignment.name
      · obtain rfl : rule = Dialect.reassignment :=
          eq_of_name_eq hrule (by simp [rules, chainStatementRules, extension]) hassign
        exact ih.reassignment hw hrole hsize hderived
      have htold := ih (w.enter rule) (role.inside rule) parts henter hinside hsize hderived.inner
        (bound_of_match hrule hsep hassign hmatch) (opensLast_of_match hrule hmatch)
      cases hkind : OccurrenceKind.ofName? rule.name with
      | some kind =>
          have hkindName := Recorder.ofName?_eq_some.mp hkind
          cases kind with
          | notEqual =>
              rw [ofRule?_eq_extension_iff.mpr (.inl hkindName)] at hlexical
              cases hlexical
          | reassignment => exact absurd hkindName hassign
          | shortIf =>
              obtain rfl : rule = shortIfStatement :=
                eq_of_name_eq hrule (by simp [rules, blockRules, extension]) hkindName
              have hinner := closed_of_match shortIfStatement (by decide) hmatch
              exact .of_accounts (by simp [Tree.opens, hinner, shortIfStatement])
                (accounts_of_inner hlexical (.inr hkind) (htold.accounts hinner))
      | none =>
          by_cases hanchor : rule.anchor = true
          · obtain rfl : rule = chainStatement :=
              eq_of_name_eq hrule (by simp [rules, chainStatementRules])
                (anchor_of_mem hrule hanchor)
            exact .of_accounts rfl (accounts_of_chainStatement hordered hderived htold)
          · have hanchored : rule.anchored = false :=
              Bool.eq_false_iff.mpr fun h => hassign (anchored_of_mem hrule h)
            exact told_of_inner hlexical hkind (Bool.not_eq_true _ ▸ hanchor) hanchored htold

/-- The trees of a derivation account for their occurrences.  The induction is on the size of the
trees. -/
theorem toldBelow (hordered : recorder.lexemes.Ordered) (size : Nat) :
    ToldBelow recorder source size := by
  induction size with
  | zero =>
      intro w role parts _ _ hsize
      exact absurd hsize (Nat.not_lt_zero _)
  | succ size ih =>
      intro w role parts hw hrole hsize hderived hbound hlast
      cases parts with
      | nil => exact .nil
      | cons part parts =>
          simp only [List.cons.sizeOf_spec] at hsize
          have hpart : w.Told recorder source role [part] := by
            cases part with
            | chars taken =>
                refine .of_accounts rfl (Walk.accounts_of_plain ?_ rfl)
                intro item hitem
                obtain rfl := List.mem_singleton.mp hitem
                rcases hrole with rfl | rfl <;> exact nofun
            | node rule inner =>
                simp only [Tree.node.sizeOf_spec] at hsize
                exact ih.node hordered hw hrole (by omega) hderived.head
                  (hbound rule inner List.mem_cons_self).2
          refine .cons hlast hpart (ih _ role parts (hw.pass part) hrole (by omega) hderived.tail
            (fun rule inner hmem => hbound rule inner (List.mem_cons_of_mem _ hmem)) ?_)
          rw [Tree.opensLast, Bool.and_eq_true] at hlast
          exact hlast.2

/-- The items of a whole text are desugared by its occurrences. -/
theorem desugars_of_whole {tree : Tree}
    (h : Match pico8.grammar (.rule rootName) source.chars [tree] [])
    (hordered : recorder.lexemes.Ordered) : ∃ os ws,
      Desugars recorder.lexemes.toList 0 (tree.items .symbol) os ws ∧
        os.Perm ((Walk.initial.captures tree).filterMap (recorder.sugar? source)) := by
  have hclosed : Tree.opensAny [tree] = false :=
    h.opensAny_eq_false (recordable pico8).toSound (by decide)
  have hbound : Tree.Bound [tree] := by
    intro rule inner hmem
    have hname : [rootName].contains rule.name = true := h.calls_within rfl rule inner hmem
    rw [List.contains_iff_mem, List.mem_singleton] at hname
    rw [hname]
    decide
  have htold : Walk.initial.Told recorder source .symbol [tree] :=
    toldBelow hordered _ Walk.initial .symbol [tree] plain_initial (.inl rfl)
      (Nat.lt_succ_self _) h.derived hbound (Tree.opensLast_of_closed hclosed)
  obtain ⟨os, ws, hos, hperm⟩ := htold.accounts hclosed
  simp only [Tree.itemsOfAll, Walk.capturesOfAll, List.append_nil] at hos hperm
  exact ⟨os, ws, hos, hperm⟩

end Dialect

end CartLua
