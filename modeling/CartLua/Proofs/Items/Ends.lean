import CartLua.Proofs.Items.Basic

/-!
# Where items end

The reader of a derivation keeps the end of the last token.  It is the end of the last item that is
no padding, since a padding rule takes nothing but padding, and no other rule takes any.
-/

namespace CartLua

open Dialect

/-! ## Where rules are used -/

/-- A match has a rule at its top only if its pattern uses the rule. -/
theorem Match.calls_within {g : Grammar} {names : List String} {p : Pattern} {s rest : List Char}
    {parts : List Tree} (h : Match g p s parts rest) (hp : p.callsWithin names = true) :
    ∀ rule inner, Tree.node rule inner ∈ parts → names.contains rule.name = true := by
  induction h with
  | seqCons _ _ ihfirst ihothers =>
      rw [Pattern.callsWithin, Pattern.allCallWithin, Bool.and_eq_true] at hp
      intro rule inner hmem
      exact (List.mem_append.mp hmem).elim (ihfirst hp.1 rule inner) (ihothers hp.2 rule inner)
  | choice hmem _ ih => exact ih (Pattern.callsWithin_of_mem hp hmem)
  | starCons _ _ ihround ihothers =>
      intro rule inner hmem
      exact (List.mem_append.mp hmem).elim (ihround hp rule inner) (ihothers hp rule inner)
  | plus _ _ ihround ihothers =>
      intro rule inner hmem
      exact (List.mem_append.mp hmem).elim (ihround hp rule inner) (ihothers hp rule inner)
  | opt _ ih => exact ih hp
  | atMostCons _ _ ihround ihothers =>
      intro rule inner hmem
      exact (List.mem_append.mp hmem).elim (ihround hp rule inner) (ihothers hp rule inner)
  | skipHere _ ih => exact ih hp
  | skipPass _ ih =>
      intro rule inner hmem
      rcases List.mem_cons.mp hmem with hmem | hmem
      · cases hmem
      · exact ih hp rule inner hmem
  | untilHere _ ih =>
      rw [Pattern.callsWithin, Bool.and_eq_true] at hp
      exact ih hp.1
  | untilMore _ _ ihround ihothers =>
      have hboth := hp
      rw [Pattern.callsWithin, Bool.and_eq_true] at hboth
      intro rule inner hmem
      exact (List.mem_append.mp hmem).elim (ihround hboth.2 rule inner) (ihothers hp rule inner)
  | must _ ih => exact ih hp
  | rule found _ _ =>
      intro rule inner hmem
      cases List.mem_singleton.mp hmem
      rw [Grammar.name_of_rule? found]
      exact hp
  | ref _ ih => exact ih hp
  | _ => simp

namespace Dialect

/-- Whether a rule of the extended dialect is used by one other rule alone. -/
def usedOnlyBy (name user : String) : Bool :=
  (rules pico8).all fun rule => rule.name == user ||
    rule.body.callsWithin (((rules pico8).map Rule.name).filter (· != name))

theorem usedOnlyBy_comment : usedOnlyBy "comment" "sep" = true := by
  decide +kernel

theorem usedOnlyBy_operatorsReassign :
    usedOnlyBy "operators_reassign" "reassignment" = true := by
  decide +kernel

/-- What a rule takes does not have at its top what only another rule uses. -/
theorem name_ne_of_usedOnlyBy {name user : String} (h : usedOnlyBy name user = true) {rule : Rule}
    (hrule : rule ∈ rules pico8) (hne : rule.name ≠ user) {s rest : List Char} {parts : List Tree}
    (hmatch : Match pico8.grammar rule.body s parts rest) :
    ∀ other inner, Tree.node other inner ∈ parts → other.name ≠ name := by
  intro other inner hmem hname
  have hcalls := List.all_eq_true.mp h rule hrule
  rw [Bool.or_eq_true, beq_iff_eq] at hcalls
  have hwithin := hmatch.calls_within (hcalls.resolve_left hne) other inner hmem
  rw [hname, List.contains_iff_mem, List.mem_filter] at hwithin
  simp at hwithin

end Dialect

/-! ## The end of the last token -/

namespace Item

/-- The end of the last item that is no padding, from an offset on. -/
def lastEnd : (offset last : Nat) → List Item → Nat
  | _, last, [] => last
  | offset, last, item :: items =>
      lastEnd (offset + item.text.length)
        (if item.isPadding then last else offset + item.text.length) items

theorem lastEnd_append (offset last : Nat) (as bs : List Item) :
    lastEnd offset last (as ++ bs) = lastEnd (offset + width as) (lastEnd offset last as) bs := by
  induction as generalizing offset last with
  | nil => rfl
  | cons a as ih => simp [lastEnd, ih, Nat.add_assoc]

theorem lastEnd_of_padding {items : List Item} (h : ∀ item ∈ items, item.isPadding = true)
    (offset last : Nat) : lastEnd offset last items = last := by
  induction items generalizing offset with
  | nil => rfl
  | cons item items ih =>
      obtain ⟨hitem, hothers⟩ := List.forall_mem_cons.mp h
      rw [lastEnd, if_pos hitem, ih hothers]

/-- The last item that is no padding comes before the padding at the end. -/
theorem lastEnd_of_ends {items padding : List Item}
    (hends : ∀ item ∈ items.getLast?, item.isPadding = false)
    (hpadding : ∀ item ∈ padding, item.isPadding = true) (offset : Nat) :
    lastEnd offset offset (items ++ padding) = offset + width items := by
  rw [lastEnd_append, lastEnd_of_padding hpadding]
  rcases List.eq_nil_or_concat items with rfl | ⟨front, last, rfl⟩
  · rfl
  · have hlast := hends last (by simp)
    rw [List.concat_eq_append, lastEnd_append]
    simp [lastEnd, hlast, Nat.add_assoc]

/-- Items end with padding, behind one that is none. -/
theorem exists_padding (items : List Item) : ∃ front padding, items = front ++ padding ∧
    (∀ item ∈ padding, item.isPadding = true) ∧
      ∀ item ∈ front.getLast?, item.isPadding = false := by
  refine ⟨(items.reverse.dropWhile isPadding).reverse, (items.reverse.takeWhile isPadding).reverse,
    ?_, ?_, ?_⟩
  · rw [← List.reverse_append, List.takeWhile_append_dropWhile, List.reverse_reverse]
  · intro item hitem
    exact List.all_eq_true.mp List.all_takeWhile item (List.mem_reverse.mp hitem)
  · intro item hitem
    rw [List.getLast?_reverse] at hitem
    have hnot := List.head?_dropWhile_not isPadding items.reverse
    rw [hitem] at hnot
    simpa using hnot

end Item

namespace Walk

mutual

/-- Where there is no padding, a token ends where its characters do. -/
theorem tokenEnd_pass_of_unpadded {w : Walk} (hw : w.padding = 0) : (t : Tree) →
    (∀ n ∈ t.nodes, n.1.padding = false) → (w.pass t).tokenEnd = w.offset + t.text.length ∨
      t.text = [] ∧ (w.pass t).tokenEnd = w.tokenEnd
  | .chars taken, _ => .inl (by simp [pass, advance, hw, Tree.text])
  | .node rule parts, h => by
      have hpadding : rule.padding = false := h (rule, parts) List.mem_cons_self
      have henter : (w.enter rule).padding = 0 := by simp [enter, hpadding, hw]
      exact tokenEnd_passAll_of_unpadded henter parts fun n hn => h n (List.mem_cons_of_mem _ hn)

theorem tokenEnd_passAll_of_unpadded {w : Walk} (hw : w.padding = 0) : (parts : List Tree) →
    (∀ n ∈ Tree.nodesOfAll parts, n.1.padding = false) →
      (w.passAll parts).tokenEnd = w.offset + (Tree.textOfAll parts).length ∨
        Tree.textOfAll parts = [] ∧ (w.passAll parts).tokenEnd = w.tokenEnd
  | [], _ => .inr ⟨rfl, rfl⟩
  | part :: parts, h => by
      have hpart := tokenEnd_pass_of_unpadded hw part fun n hn => h n (List.mem_append_left _ hn)
      have hparts :=
        tokenEnd_passAll_of_unpadded (w := w.pass part) (by rw [padding_pass, hw]) parts
          fun n hn => h n (List.mem_append_right _ hn)
      rw [offset_pass] at hparts
      simp only [passAll, Tree.textOfAll, List.length_append]
      rcases hparts with hparts | ⟨hnone, hparts⟩
      · exact .inl (by omega)
      · rw [hparts, hnone]
        rcases hpart with hpart | ⟨htext, hpart⟩
        · exact .inl (by simp [hpart])
        · exact .inr ⟨by simp [htext], hpart⟩

end

end Walk

namespace Dialect

mutual

/-- The items of a padding rule are padding. -/
theorem isPadding_of_mem_items : (t : Tree) →
    (∀ n ∈ t.nodes, paddingRules.contains n.1.name = true) →
      ∀ item ∈ t.items .blank, item.isPadding = true
  | .chars taken, _, item, hitem => by
      obtain rfl := List.mem_singleton.mp hitem
      rfl
  | .node rule parts, h, item, hitem => by
      have hname := h (rule, parts) List.mem_cons_self
      have hroles : paddingRules.all (fun name => Role.ofRule? name == none ||
          Role.ofRule? name == some .comment) = true := by decide +kernel
      have hrole := List.all_eq_true.mp hroles rule.name (List.contains_iff_mem.mp hname)
      simp only [Bool.or_eq_true, beq_iff_eq] at hrole
      rcases hrole with hnone | hcomment
      · have hinside : Role.inside .blank rule = .blank := by
          rw [Role.inside]
          split
          · rfl
          · split
            · rename_i hshort
              rw [hshort] at hname
              exact absurd hname (by decide)
            · rfl
        rw [Tree.items_of_none hnone, hinside] at hitem
        exact isPadding_of_mem_itemsOfAll parts (fun n hn => h n (List.mem_cons_of_mem _ hn)) item
          hitem
      · rw [Tree.items_of_lexical hcomment] at hitem
        obtain rfl := List.mem_singleton.mp hitem
        rfl

theorem isPadding_of_mem_itemsOfAll : (parts : List Tree) →
    (∀ n ∈ Tree.nodesOfAll parts, paddingRules.contains n.1.name = true) →
      ∀ item ∈ Tree.itemsOfAll .blank parts, item.isPadding = true
  | [], _, item, hitem => absurd hitem List.not_mem_nil
  | part :: parts, h, item, hitem => by
      rcases List.mem_append.mp hitem with hitem | hitem
      · exact isPadding_of_mem_items part (fun n hn => h n (List.mem_append_left _ hn)) item hitem
      · exact isPadding_of_mem_itemsOfAll parts (fun n hn => h n (List.mem_append_right _ hn)) item
          hitem

end

/-- Outside padding no item of a lexical rule is padding, but for comments. -/
theorem isPadding_of_lexical {name : String} {role : Role} (h : Role.ofRule? name = some role)
    (hname : name ≠ "comment") (text : List Char) : Item.isPadding ⟨role, text⟩ = false := by
  rw [Role.ofRule?, if_neg hname] at h
  repeat (split at h; cases h; rfl)
  cases h

theorem not_padding_of_isLexical {rule : Rule} {role : Role} (hrule : rule ∈ rules pico8)
    (h : Role.ofRule? rule.name = some role) : rule.padding = false := by
  have hall : (rules pico8).all (fun rule => !rule.padding || Role.ofRule? rule.name == none) =
      true := by decide +kernel
  simpa [h] using List.all_eq_true.mp hall rule hrule

/-- Inside a lexical rule there is no padding. -/
theorem not_padding_of_lexical {rule : Rule} {role : Role} {parts : List Tree}
    (h : Role.ofRule? rule.name = some role) (hderived : Tree.Derived [.node rule parts]) :
    ∀ n ∈ Tree.nodesOfAll parts, n.1.padding = false := by
  intro n hn
  have hname := lexicalParts_of_mem_nodes h hderived n hn
  have hall : (rules pico8).all (fun rule => !lexicalParts.contains rule.name || !rule.padding) =
      true := by decide +kernel
  have hrule := List.all_eq_true.mp hall n.1 (hderived.inner n hn).1
  rw [hname] at hrule
  simpa using hrule

/-- What a padding rule takes is padding. -/
theorem isPadding_of_padding {rule : Rule} {parts : List Tree}
    (hderived : Tree.Derived [.node rule parts]) (hpadding : rule.padding = true) (role : Role) :
    ∀ item ∈ (Tree.node rule parts).items role, item.isPadding = true := by
  obtain ⟨hrule, s, rest, hmatch⟩ := hderived.node
  have hname := padding_of_mem hrule (by rw [hpadding, Bool.true_or])
  have hnone : Role.ofRule? rule.name = none := by
    cases hlexical : Role.ofRule? rule.name with
    | none => rfl
    | some lexical =>
        rw [not_padding_of_isLexical hrule hlexical] at hpadding
        cases hpadding
  rw [Tree.items_of_none hnone, Role.inside, if_pos hpadding]
  apply isPadding_of_mem_itemsOfAll
  exact hmatch.names_within
    (fun other hother hname => callsWithin_of_mem (rules_grammar pico8 ▸ hother) hname)
    (callsWithin_of_mem hrule hname)

mutual

/-- The last token of a tree ends with the last item that is no padding. -/
theorem tokenEnd_pass_eq {w : Walk} (hw : w.padding = 0) {role : Role}
    (hrole : role = .symbol ∨ role = .raw) : (t : Tree) → Tree.Derived [t] →
    (∀ rule inner, t = .node rule inner → rule.name ≠ "comment") →
      (w.pass t).tokenEnd = Item.lastEnd w.offset w.tokenEnd (t.items role)
  | .chars taken, _, _ => by
      rcases hrole with rfl | rfl <;>
        simp [Walk.pass, Walk.advance, hw, Tree.items, Item.lastEnd, Item.isPadding]
  | .node rule parts, hderived, hname => by
      obtain ⟨hrule, s, rest, hmatch⟩ := hderived.node
      cases hlexical : Role.ofRule? rule.name with
      | some lexical =>
          have hplain := isPadding_of_lexical hlexical (hname rule parts rfl) (Tree.textOfAll parts)
          have hnodes : ∀ n ∈ (Tree.node rule parts).nodes, n.1.padding = false := by
            intro n hn
            rcases List.mem_cons.mp hn with rfl | hn
            · exact not_padding_of_isLexical hrule hlexical
            · exact not_padding_of_lexical hlexical hderived n hn
          have htext := text_ne_nil_of_lexical hrule hlexical hmatch
          rw [Tree.items_of_lexical hlexical, Item.lastEnd, hplain, Item.lastEnd]
          exact (Walk.tokenEnd_pass_of_unpadded hw (.node rule parts) hnodes).resolve_right
            fun h => htext h.1
      | none =>
          cases hpadding : rule.padding with
          | true =>
              have henter : 0 < (w.enter rule).padding := by simp [Walk.enter, hpadding, hw]
              rw [Item.lastEnd_of_padding (isPadding_of_padding hderived hpadding role)]
              exact Walk.tokenEnd_passAll_of_padding henter parts
          | false =>
              have henter : (w.enter rule).padding = 0 := by simp [Walk.enter, hpadding, hw]
              have hinside : role.inside rule = .symbol ∨ role.inside rule = .raw := by
                rw [Role.inside, if_neg (by simp [hpadding])]
                split
                · exact .inr rfl
                · exact hrole
              rw [Tree.items_of_none hlexical]
              apply tokenEnd_passAll_eq henter hinside parts hderived.inner
              apply name_ne_of_usedOnlyBy usedOnlyBy_comment hrule _ hmatch
              rintro hsep
              obtain rfl : rule = sep := eq_of_name_eq hrule mem_sep hsep
              cases hpadding

theorem tokenEnd_passAll_eq {w : Walk} (hw : w.padding = 0) {role : Role}
    (hrole : role = .symbol ∨ role = .raw) : (parts : List Tree) → Tree.Derived parts →
    (∀ rule inner, .node rule inner ∈ parts → rule.name ≠ "comment") →
      (w.passAll parts).tokenEnd = Item.lastEnd w.offset w.tokenEnd (Tree.itemsOfAll role parts)
  | [], _, _ => rfl
  | part :: parts, hderived, hnames => by
      have hpass : (w.pass part).padding = 0 := by rw [Walk.padding_pass, hw]
      rw [Walk.passAll, tokenEnd_passAll_eq hpass hrole parts hderived.tail
          (fun rule inner h => hnames rule inner (List.mem_cons_of_mem _ h)),
        tokenEnd_pass_eq hw hrole part hderived.head
          (fun rule inner h => hnames rule inner (h ▸ List.mem_cons_self)),
        Walk.offset_pass, Tree.itemsOfAll, Item.lastEnd_append, Item.width, Tree.textOf_items]

end

end Dialect

end CartLua
