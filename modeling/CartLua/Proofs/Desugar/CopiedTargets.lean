import CartLua.Proofs.Desugar.Output
import CartLua.Proofs.Items.Characters

/-!
# The two copies of a target

A compound assignment is written with two copies of its target, and the second one stands on one
line.  The copies are alike, item by item: padding is written as other padding, a string literal as
a string literal, and everything else as it is.  So they have the same tokens.

What is written for an item may only be read as something else because of what comes next to it: two
dashes must not meet, and the bracket of an index must not meet another one.  But what is written
for some items begins with one of these characters only if the items do.
-/

namespace CartLua

open Dialect Terminal

/-! ## What comes next -/

/-- Whether a text begins with a dash, a bracket or a sign only where another text begins with the
same. -/
def Keeps (s t : List Char) : Prop := ∀ c ∈ ['-', '[', '='], t.head? = some c → s.head? = some c

theorem Keeps.cons (c : Char) (s t : List Char) : Keeps (c :: s) (c :: t) := fun _ _ h => h

theorem Keeps.append {s t : List Char} (h : Keeps s t) (text : List Char) :
    Keeps (text ++ s) (text ++ t) := by
  cases text with
  | nil => exact h
  | cons c text => exact .cons c _ _

theorem Keeps.of_head {s t : List Char} {c : Char} (h : c ∉ ['-', '[', '=']) :
    Keeps s (c :: t) := by
  rintro d hd heq
  obtain rfl := Option.some.inj heq
  exact absurd hd h

theorem Keeps.startsOutside {s t chars : List Char} (h : Keeps s t)
    (hchars : chars ⊆ ['-', '[', '=']) (hs : StartsOutside chars s) : StartsOutside chars t := by
  intro c hc hmem
  exact hs c (h c (hchars hmem) hc) hmem

theorem not_atBreak_cons {c : Char} {s : List Char} (hc : c ∉ breakCharacters)
    (hdash : c = '-' → StartsOutside ['-'] s) (hopens : c = '[' → StartsOutside ['[', '='] s) :
    ¬AtBreak (c :: s) := by
  rintro (hnil | ⟨d, hd, hmem⟩ | ⟨t, ht⟩ | ⟨level, t, ht⟩)
  · cases hnil
  · cases hd
    exact hc hmem
  · obtain ⟨hfirst, hothers⟩ := List.cons.inj ht
    have hs := hdash hfirst.symm
    rw [← hothers] at hs
    exact absurd hs (by simp)
  · rw [openingBracket_append] at ht
    obtain ⟨hfirst, hothers⟩ := List.cons.inj ht
    have hs := hopens hfirst.symm
    rw [← hothers] at hs
    cases level <;> exact absurd hs (by simp [List.replicate_succ])

namespace Item

/-- Whether no bracket of an item, other than that of a string or a comment, stands before another
one or before a sign. -/
def Apart (item : Item) (rest : List Char) : Prop :=
  item.role.lexemeKind? = none → ∀ front back, item.text = front ++ '[' :: back →
    StartsOutside ['[', '='] (back ++ rest)

/-- Whether what comes next does not matter to an item. -/
def Firm (item : Item) : Prop := item.isPadding = true ∨ item.role = .word ∨ item.text = [']']

theorem Closes.firm {items : List Item} (h : Closes items) :
    ∀ last ∈ items.getLast?, last.Firm := by
  obtain ⟨front, last, padding, rfl, hlast, hpadding⟩ := h
  intro final hfinal
  rw [List.getLast?_append, List.getLast?_cons] at hfinal
  cases hend : padding.getLast? with
  | none =>
      rw [hend] at hfinal
      obtain rfl := Option.some.inj hfinal
      exact .inr hlast
  | some other =>
      rw [hend] at hfinal
      obtain rfl := Option.some.inj hfinal
      exact .inl (hpadding _ (List.mem_of_getLast? hend))

end Item

namespace Alike

variable {s t rest text : List Char}

/-- Characters without a break are written as they are. -/
theorem of_sits (h : Alike s t) (htext : Sits text rest)
    (hopens : ∀ front back, text = front ++ '[' :: back → StartsOutside ['[', '='] (back ++ rest))
    (hs : Keeps rest s) (ht : Keeps rest t) : Alike (text ++ s) (text ++ t) := by
  induction text with
  | nil => exact h
  | cons c text ih =>
      obtain ⟨⟨hc, hdash⟩, hothers⟩ := htext
      have hbeside : ∀ {u : List Char}, Keeps rest u → ¬AtBreak (c :: (text ++ u)) := by
        intro u hu
        refine not_atBreak_cons hc (fun h => ?_) fun h => ?_
        · exact (hu.append text).startsOutside (by decide) (hdash h)
        · exact (hu.append text).startsOutside (by decide) (hopens [] text (h ▸ rfl))
      exact .char (hbeside hs) (hbeside ht)
        (ih hothers fun front back heq => hopens (c :: front) back (heq ▸ rfl))

/-- Characters are written as they are, whatever comes next. -/
theorem of_firm (h : Alike s t) (htext : ∀ c ∈ text, c ∉ '-' :: '[' :: breakCharacters) :
    Alike (text ++ s) (text ++ t) := by
  induction text with
  | nil => exact h
  | cons c text ih =>
      obtain ⟨hc, hothers⟩ := List.forall_mem_cons.mp htext
      simp only [List.mem_cons, not_or] at hc
      have hbeside : ∀ u, ¬AtBreak (c :: u) := fun u =>
        not_atBreak_cons (by simpa using hc.2.2) (fun h => absurd h hc.1) fun h => absurd h hc.2.1
      exact .char (hbeside _) (hbeside _) (ih hothers)

theorem of_char {c : Char} (h : Alike s t) (hc : c ∉ '-' :: '[' :: breakCharacters) :
    Alike (c :: s) (c :: t) :=
  show Alike ([c] ++ s) ([c] ++ t) from h.of_firm (List.forall_mem_singleton.mpr hc)

end Alike

theorem Sits.not_isLineEnd {text rest : List Char} (h : Sits text rest) :
    ∀ c ∈ text, OneLine.isLineEnd c = false := by
  induction text with
  | nil => exact nofun
  | cons c text ih =>
      refine List.forall_mem_cons.mpr ⟨Bool.eq_false_iff.mpr fun hend => h.1.1 ?_, ih h.2⟩
      simp only [OneLine.isLineEnd, Bool.or_eq_true, decide_eq_true_eq] at hend
      rcases hend with rfl | rfl <;> decide

namespace Item

variable {item : Item} {s t rest : List Char}

/-- A blank is written as a blank. -/
theorem exists_blank_of_blank (hkind : item.role.lexemeKind? = none) {c : Char}
    (hc : c ∈ spaces.toList) (htext : item.text = [c]) (flat : Bool) :
    ∃ d ∈ spaces.toList, Written.text ⟨item, flat⟩ = [d] := by
  cases flat with
  | false => exact ⟨c, hc, htext⟩
  | true =>
      have hflat : Written.text ⟨item, true⟩ = OneLine.spaced [c] := by
        rw [← htext]
        exact flat_of_lexemeKind? hkind
      refine ⟨if OneLine.isLineEnd c then ' ' else c, ?_, hflat⟩
      split
      · decide
      · exact hc

/-- An item without line ends is written as it is. -/
theorem text_of_inline (hkind : item.role.lexemeKind? = none)
    (hline : ∀ c ∈ item.text, OneLine.isLineEnd c = false) (flat : Bool) :
    Written.text ⟨item, flat⟩ = item.text := by
  cases flat with
  | false => rfl
  | true => exact (flat_of_lexemeKind? hkind).trans (OneLine.spaced_eq_self hline)

theorem alike_of_blank (h : Alike s t) (hkind : item.role.lexemeKind? = none) {c : Char}
    (hc : c ∈ spaces.toList) (htext : item.text = [c]) (first second : Bool) :
    Alike (Written.text ⟨item, first⟩ ++ s) (Written.text ⟨item, second⟩ ++ t) := by
  obtain ⟨d, hd, hleft⟩ := exists_blank_of_blank hkind hc htext first
  obtain ⟨e, he, hright⟩ := exists_blank_of_blank hkind hc htext second
  rw [hleft, hright]
  exact .padding (.blank hd) (.blank he) h

theorem alike_of_sits (h : Alike s t) (hkind : item.role.lexemeKind? = none)
    (htext : Sits item.text rest) (hapart : item.Apart rest)
    (hnext : item.text = [']'] ∨ Keeps rest s ∧ Keeps rest t) (first second : Bool) :
    Alike (Written.text ⟨item, first⟩ ++ s) (Written.text ⟨item, second⟩ ++ t) := by
  rw [text_of_inline hkind htext.not_isLineEnd, text_of_inline hkind htext.not_isLineEnd]
  rcases hnext with hbracket | ⟨hs, ht⟩
  · rw [hbracket]
    exact h.of_char (by decide)
  · exact h.of_sits htext (hapart hkind) hs ht

/-- Both ways to write an item are alike. -/
theorem alike (h : Alike s t) (hplain : item.role ≠ .extension) (hfits : item.Fits rest)
    (hapart : item.Apart rest) (hrest : rest ≠ []) (hnext : item.Firm ∨ Keeps rest s ∧ Keeps rest t)
    (first second : Bool) :
    Alike (Written.text ⟨item, first⟩ ++ s) (Written.text ⟨item, second⟩ ++ t) := by
  obtain ⟨role, text⟩ := item
  cases role with
  | word =>
      have hclear : ∀ c ∈ nameCharacters.toList, c ∉ '-' :: '[' :: breakCharacters ∧
          OneLine.isLineEnd c = false := forall_mem_of_all (by decide)
      have hline : ∀ flat, Written.text ⟨⟨.word, text⟩, flat⟩ = text :=
        text_of_inline rfl fun c hc => (hclear c (hfits c hc)).2
      rw [hline first, hline second]
      exact h.of_firm fun c hc => (hclear c (hfits c hc)).1
  | string =>
      have hliteral : ∀ flat, IsLiteral (Written.text ⟨⟨.string, text⟩, flat⟩) := by
        intro flat
        cases flat with
        | false => exact hfits
        | true => exact isLiteral_flat hfits
      exact .string (hliteral first) (hliteral second) h
  | comment =>
      have hcomment :
          ∀ {u : List Char} flat, Separator (Written.text ⟨⟨.comment, text⟩, flat⟩) u := by
        intro u flat
        cases flat with
        | false => exact .comment (Comment.transfer hfits fun hnil => absurd hnil hrest)
        | true => exact .blank (show ' ' ∈ spaces.toList by decide)
      exact .padding (hcomment first) (hcomment second) h
  | blank =>
      obtain ⟨c, hc, htext⟩ := hfits
      exact alike_of_blank h rfl hc htext first second
  | extension => exact absurd rfl hplain
  | header => exact absurd hfits id
  | _ =>
      rcases hfits with ⟨c, hc, htext⟩ | htext
      · exact alike_of_blank h rfl hc htext first second
      · refine alike_of_sits h rfl htext hapart (hnext.imp_left ?_) first second
        rintro (hpadding | hword | hbracket)
        · cases hpadding
        · cases hword
        · exact hbracket

/-- What is written for an item begins with a dash, a bracket or a sign only if the item does. -/
theorem keeps_text (hfits : item.Fits rest) (hnonempty : item.text ≠ []) (flat : Bool)
    (more other : List Char) : Keeps (item.text ++ more) (Written.text ⟨item, flat⟩ ++ other) := by
  obtain ⟨c, text, hitem⟩ := List.exists_cons_of_ne_nil hnonempty
  have hsame : Written.text ⟨item, flat⟩ = item.text →
      Keeps (item.text ++ more) (Written.text ⟨item, flat⟩ ++ other) := by
    intro htext
    rw [htext, hitem]
    exact .cons c _ _
  cases flat with
  | false => exact hsame rfl
  | true =>
      change Keeps _ (item.flat ++ other)
      cases hkind : item.role.lexemeKind? with
      | none =>
          rw [flat_of_lexemeKind? hkind, hitem]
          by_cases hend : OneLine.isLineEnd c = true
          · simpa [OneLine.spaced, hend] using Keeps.of_head (by decide)
          · simpa [OneLine.spaced, hend] using Keeps.cons c _ _
      | some kind =>
          obtain ⟨role, taken⟩ := item
          cases role with
          | comment => exact .of_head (by decide)
          | string =>
              rcases flat_of_isLiteral hfits with hkept | ⟨_, _, _, quotes, -, hflat⟩
              · exact hsame hkept
              · rw [hflat]
                cases quotes <;> exact .of_head (by decide)
          | _ => cases hkind

end Item

/-! ## Rows of items -/

namespace Desugars

variable {log : List Lexeme} {offset : Nat} {items : List Item} {os : List Occurrence}
  {ws : List Written} {after : List Char}

theorem render_cons (item : Item) (ws : List Written) (flat : Bool) :
    Written.render flat (⟨item, false⟩ :: ws) =
      Written.text ⟨item, flat⟩ ++ Written.render flat ws := by
  cases flat <;> rfl

theorem target_ne_nil {target : List Item}
    (starts : ∃ item ∈ target.head?, item.role = .word ∨ item.text = ['(']) : target ≠ [] := by
  rintro rfl
  obtain ⟨_, hnone, -⟩ := starts
  cases hnone

/-- What is written for items begins with a dash, a bracket or a sign only if they do. -/
theorem keeps_render (h : Desugars log offset items os ws) (hitems : items ≠ [])
    (hfits : Item.Each Item.Fits items after) (hnonempty : ∀ item ∈ items, item.text ≠ [])
    (flat : Bool) (more other : List Char) :
    Keeps (Item.textOf items ++ more) (Written.render flat ws ++ other) := by
  induction h generalizing after more other with
  | nil offset => exact absurd rfl hitems
  | @keep offset item items os ws plain others _ =>
      rw [Item.textOf_cons, render_cons, List.append_assoc, List.append_assoc]
      exact Item.keeps_text hfits.1 (hnonempty item List.mem_cons_self) flat _ _
  | @comparison offset o items os ws kind offset_eq stop_eq others _ =>
      rw [render_cons]
      cases flat <;> exact .of_head (by decide)
  | assignment kind offset_eq operator_eq stop_eq layout_eq mark_mem starts closes ends inner right
        others ihinner _ _ =>
      rw [Item.each_append] at hfits
      rw [Item.textOf_append, Written.render_append, List.append_assoc, List.append_assoc]
      exact ihinner (target_ne_nil starts) hfits.1
        (fun item hitem => hnonempty item (List.mem_append_left _ hitem)) _ _

/-- What is written for a compound assignment is alike where its parts are. -/
theorem alike_assignment {mark : Char} (hmark : mark ∈ Desugar.operators)
    {first second ws : List Written} {one other : Bool} {s t : List Char}
    (htarget : ∀ one other {s t : List Char}, Alike s t →
      Alike (Written.render one first ++ s) (Written.render other first ++ t))
    (hvalue : ∀ {s t : List Char}, Alike (')' :: s) (')' :: t) →
      Alike (Written.render one second ++ ')' :: s) (Written.render other second ++ ')' :: t))
    (hothers : Alike (Written.render one ws ++ s) (Written.render other ws ++ t)) :
    Alike
      (Written.render one
        (first ++ .mark '=' :: (first.map Written.flatten ++ .mark mark :: .mark '(' ::
        (second ++ .mark ')' :: ws))) ++ s)
      (Written.render other
        (first ++ .mark '=' :: (first.map Written.flatten ++ .mark mark :: .mark '(' ::
        (second ++ .mark ')' :: ws))) ++ t) := by
  have hrender : ∀ flat s, Written.render flat (first ++ .mark '=' :: (first.map Written.flatten ++
      .mark mark :: .mark '(' :: (second ++ .mark ')' :: ws))) ++ s =
        Written.render flat first ++ '=' :: (Written.render true first ++ mark :: '(' ::
          (Written.render flat second ++ ')' :: (Written.render flat ws ++ s))) := by
    intro flat s
    have hsplit : first ++ .mark '=' :: (first.map Written.flatten ++ .mark mark :: .mark '(' ::
        (second ++ .mark ')' :: ws)) =
          first ++ .mark '=' :: (first.map Written.flatten ++ .mark mark :: .mark '(' ::
            (second ++ [.mark ')'])) ++ ws := by simp
    rw [hsplit, Written.render_append, Written.render_assignment hmark]
    simp
  have hoperator : mark ∉ '[' :: breakCharacters := by
    have hall : ∀ c ∈ Desugar.operators, c ∉ '[' :: breakCharacters := forall_mem_of_all (by decide)
    exact hall mark hmark
  have hmarked : ∀ u, ¬AtBreak (mark :: '(' :: u) := by
    intro u
    simp only [List.mem_cons, not_or] at hoperator
    exact not_atBreak_cons (by simpa using hoperator.2) (fun _ => by simp) fun h =>
      absurd h hoperator.1
  rw [hrender, hrender]
  have hclosed := hvalue (hothers.of_char (c := ')') (by decide))
  have hcopy :=
    htarget true true (.char (hmarked _) (hmarked _) (hclosed.of_char (c := '(') (by decide)))
  exact htarget one other (hcopy.of_char (by decide))

/-- The two ways to write items are alike. -/
theorem alike (h : Desugars log offset items os ws) (hfits : Item.Each Item.Fits items after)
    (hapart : Item.Each Item.Apart items after) (hnonempty : ∀ item ∈ items, item.text ≠ [])
    (hafter : after ≠ []) {s t : List Char} (halike : Alike s t)
    (hnext : ∀ last ∈ items.getLast?, last.Firm ∨ Keeps after s ∧ Keeps after t)
    (first second : Bool) :
    Alike (Written.render first ws ++ s) (Written.render second ws ++ t) := by
  induction h generalizing after s t first second with
  | nil offset => simpa [Written.render] using halike
  | @keep offset item items os ws plain others ih =>
      have hbehind : ∀ last ∈ items.getLast?, last.Firm ∨ Keeps after s ∧ Keeps after t := by
        intro last hlast
        refine hnext last ?_
        rw [List.getLast?_cons, hlast]
        rfl
      have hrest : Item.textOf items ++ after ≠ [] := by simp [hafter]
      rw [render_cons, render_cons, List.append_assoc, List.append_assoc]
      have hothers :=
        ih hfits.2 hapart.2 (fun other hother => hnonempty other (List.mem_cons_of_mem _ hother))
          hafter halike hbehind first second
      refine Item.alike hothers plain hfits.1 hapart.1 hrest ?_ first second
      by_cases hlast : items = []
      · subst hlast
        obtain ⟨-, rfl⟩ := others.of_nil
        cases first <;> cases second <;> exact hnext item rfl
      · have hitems := fun other hother => hnonempty other (List.mem_cons_of_mem item hother)
        exact .inr ⟨others.keeps_render hlast hfits.2 hitems first _ _,
          others.keeps_render hlast hfits.2 hitems second _ _⟩
  | @comparison offset o items os ws kind offset_eq stop_eq others ih =>
      have hbehind : ∀ last ∈ items.getLast?, last.Firm ∨ Keeps after s ∧ Keeps after t := by
        intro last hlast
        refine hnext last ?_
        rw [List.getLast?_cons, hlast]
        rfl
      have hothers :=
        ih hfits.2 hapart.2 (fun other hother => hnonempty other (List.mem_cons_of_mem _ hother))
          hafter halike hbehind first second
      have htext : ∀ flat, Written.text ⟨⟨.symbol, ['~', '=']⟩, flat⟩ = ['~', '='] := by
        intro flat
        cases flat <;> rfl
      rw [render_cons, render_cons, htext, htext, List.append_assoc, List.append_assoc]
      exact hothers.of_firm (forall_mem_of_all (by decide))
  | @assignment offset o mark target value items inTarget inValue os first' second' ws kind
      offset_eq operator_eq stop_eq layout_eq mark_mem starts closes ends inner right others ihinner
      ihright ihothers =>
      simp only [Item.each_append, Item.Each] at hfits hapart
      simp only [List.forall_mem_append, List.forall_mem_cons] at hnonempty
      obtain ⟨htargetFits, -, hvalueFits, hothersFits⟩ := hfits
      obtain ⟨htargetApart, -, hvalueApart, hothersApart⟩ := hapart
      obtain ⟨htargetItems, -, hvalueItems, hothersItems⟩ := hnonempty
      have hbehind : ∀ last ∈ items.getLast?, last.Firm ∨ Keeps after s ∧ Keeps after t := by
        intro last hlast
        refine hnext last ?_
        simp [List.getLast?_append, List.getLast?_cons, Option.mem_def.mp hlast]
      have hinside : ∀ {s : List Char}, Keeps (Item.textOf items ++ after) (')' :: s) :=
        .of_head (by decide)
      refine alike_assignment mark_mem (fun one other s t hst => ?_) (fun hst => ?_) ?_
      · exact ihinner htargetFits htargetApart htargetItems (by simp) hst
          (fun last hlast => .inl (closes.firm last hlast)) one other
      · exact ihright hvalueFits hvalueApart hvalueItems (by simp [hafter]) hst
          (fun last _ => .inr ⟨hinside, hinside⟩) first second
      · exact ihothers hothersFits hothersApart hothersItems hafter halike hbehind first second

/-- No operator of the extended dialect is written. -/
theorem plain_of_mem (h : Desugars log offset items os ws) :
    ∀ w ∈ ws, w.item.role ≠ .extension := by
  have hmark : ∀ c, (Written.mark c).item.role ≠ .extension := fun _ => nofun
  induction h with
  | nil offset => exact nofun
  | keep plain _ ih => exact List.forall_mem_cons.mpr ⟨plain, ih⟩
  | comparison _ _ _ _ ih => exact List.forall_mem_cons.mpr ⟨nofun, ih⟩
  | assignment _ _ _ _ _ _ _ _ _ _ _ _ ihinner ihright ihothers =>
      simp only [List.forall_mem_append, List.forall_mem_cons, List.forall_mem_map]
      exact ⟨ihinner, hmark _, ihinner, hmark _, hmark _, ihright, hmark _, ihothers⟩

end Desugars

/-! ## Targets of a text -/

/-- Whether no bracket in the target of an occurrence stands before another one or before a sign,
but for those in its comments and strings.  A long string behind a bracket is read as an index where
the grammar looks for nothing else. -/
def Occurrence.IndexesApart (source : Source) (o : Occurrence) : Prop :=
  ∀ operator ∈ o.operator, ∀ k : Int, o.offset ≤ k → k < operator →
    source.piece k (k + 2) = ['[', '['] ∨ source.piece k (k + 2) = ['[', '='] →
      ∃ lexeme ∈ o.layout, lexeme.offset ≤ k ∧ k < lexeme.stop

namespace Item

/-- What holds of each item, with what stands before and after it, holds of all in a row. -/
theorem each_of_forall {P : Item → List Char → Prop} {items : List Item} {rest : List Char}
    (h : ∀ front item back, items = front ++ item :: back → P item (textOf back ++ rest)) :
    Each P items rest := by
  induction items with
  | nil => trivial
  | cons item items ih =>
      exact ⟨h [] item items rfl,
        ih fun front other back heq => h (item :: front) other back (heq ▸ rfl)⟩

/-- The header of a text is not in a row that begins otherwise. -/
theorem each_of_header {P : Item → List Char → Prop} {header others before items : List Item}
    {rest : List Char} (hall : header ++ others = before ++ items)
    (hheader : ∀ item ∈ header, item.role = .header ∧ item.text.head? = some '#')
    (hstarts : ∃ item ∈ items.head?, item.role = .word ∨ item.text = ['('])
    (hothers : Each P others rest) : Each P items rest := by
  rcases List.append_eq_append_iff.mp hall with ⟨more, -, rfl⟩ | ⟨more, rfl, rfl⟩
  · exact (each_append.mp hothers).2
  · cases more with
    | nil => exact hothers
    | cons item more =>
        obtain ⟨first, hfirst, hplain⟩ := hstarts
        obtain rfl : item = first := Option.some.inj hfirst
        obtain ⟨hrole, htext⟩ := hheader item (by simp)
        rcases hplain with hword | hbracket
        · rw [hword] at hrole
          cases hrole
        · rw [hbracket] at htext
          cases htext

end Item

namespace Assigns

variable {source : Source} {log : List Lexeme} {offset : Nat} {o : Occurrence} {mark : Char}
  {target value more : List Item} {inTarget inValue os : List Occurrence}
  {first second : List Written}

/-- The brackets of a target that are apart in the text are so in its items. -/
theorem each_apart (h : Assigns log offset o mark target value inTarget inValue first second)
    (hrow : Item.Row source log offset (target ++ more)) (hapart : o.IndexesApart source)
    {rest : List Char} (hrest : ∃ before, source.chars = before ++ (Item.textOf target ++ rest) ∧
      before.length = offset) : Item.Each Item.Apart target rest := by
  refine Item.each_of_forall fun front item back htarget hkind left right htext c hc hmem => ?_
  obtain ⟨before, hchars, hbefore⟩ := hrest
  obtain ⟨others, hothers⟩ := List.head?_eq_some_iff.mp hc
  have hoffset := h.offset_eq
  have hlength := congrArg List.length htext
  have hwidth := congrArg Item.width htarget
  simp only [List.length_append, List.length_cons, Item.width_append,
    Item.width_cons] at hlength hwidth
  -- The bracket and the character after it stand in the text.
  have hsplit : source.chars = (before ++ (Item.textOf front ++ left)) ++ (['[', c] ++ others) := by
    rw [hchars, htarget, Item.textOf_append, Item.textOf_cons, htext]
    simp only [List.append_assoc, List.cons_append, List.nil_append] at hothers ⊢
    rw [hothers]
  have hplace : ∀ {k : Int}, k = ((offset + Item.width front + left.length : Nat) : Int) →
      ∃ lexeme ∈ o.layout, lexeme.offset ≤ k ∧ k < lexeme.stop := by
    intro k hk
    have hpiece : source.piece k (k + 2) = ['[', c] := piece_of_split hsplit
      (by simp only [List.length_append, Item.width] at hk ⊢; omega) rfl
    refine hapart _ h.operator_eq k (by omega) (by omega) ?_
    rw [hpiece]
    rcases List.mem_cons.mp hmem with rfl | hsign
    · exact .inl rfl
    · exact .inr (by rw [List.mem_singleton.mp hsign])
  obtain ⟨lexeme, hlexeme, hle, hlt⟩ := hplace rfl
  -- No comment or string of the target covers it.
  have hnone : Item.lexeme? (offset + Item.width front) item = none := by
    rw [Item.lexeme?, hkind]; rfl
  rw [h.layout_eq, hrow.left.lexemes_eq, htarget, Item.lexemes_append, Item.lexemes,
    hnone] at hlexeme
  obtain ⟨hfront, hothers⟩ := List.forall_mem_append.mp (htarget ▸ hrow.left.nonempty)
  rcases List.mem_append.mp hlexeme with hbefore | hbehind
  · have hbounds := Item.bounds_of_mem_lexemes hfront lexeme hbefore
    omega
  · have hbounds := Item.bounds_of_mem_lexemes (List.forall_mem_cons.mp hothers).2 lexeme hbehind
    omega

end Assigns

/-- Whether a layout is that of a compound assignment whose target an occurrence lies in. -/
def Occurrence.InLayout (os : List Occurrence) (o : Occurrence) (lexemes : List Lexeme) : Prop :=
  ∃ outer ∈ os, outer.kind = .reassignment ∧ outer.layout = lexemes ∧
    ∃ operator ∈ outer.operator, o.between outer.offset operator = true

/-- Whether two texts are read as the same tokens, a string literal being as good as another one. -/
def SameTokens (s t : List Char) : Prop :=
  ∀ dialect : Dialect, ∃ shapes, dialect.Lexes s shapes ∧ dialect.Lexes t shapes

/-- Whether the target of a compound assignment is written twice with the same tokens.  Both copies
are made of the items of the target, with all occurrences in it written anew. -/
def Occurrence.CopiesTarget (source : Source) (recorder : Recorder) (o : Occurrence)
    (layout : Option (List Lexeme)) : Prop :=
  let os := recorder.occurrences [.notEqual, .reassignment]
  ∃ (start : Nat) (operator : Int) (mark : Char) (lhs copy value : List Char) (items : List Item)
    (ws : List Written), o.offset = start ∧ o.operator = some operator ∧
    (∀ steps, (os.filter (between o.offset operator) ++
        os.filter (between (operator + 2) o.stop)).length ≤ steps →
      Desugar.renderWith source (Desugar.edits source steps) o.offset operator
        (os.filter (between o.offset operator)) layout = .ok lhs ∧
      Desugar.renderWith source (Desugar.edits source steps) o.offset operator
        (os.filter (between o.offset operator)) (some (layout.getD o.layout)) = .ok copy ∧
      Desugar.reassignmentEdit source (Desugar.edits source steps) o
        (os.filter (between o.offset operator) ++
          os.filter (between (operator + 2) o.stop)) layout =
            .ok ⟨o.offset, o.stop, lhs ++ '=' :: (copy ++ mark :: '(' :: (value ++ [')']))⟩) ∧
    SameTokens lhs copy ∧
    Item.textOf items = source.piece o.offset operator ∧
    Desugars recorder.lexemes.toList start items (os.filter (between o.offset operator)) ws ∧
    (∀ w ∈ ws, w.item.role ≠ .extension) ∧
    lhs = Written.render layout.isSome ws ∧ copy = Written.render true ws

namespace Dialect

/-- In an accepted text, the target of a compound assignment is written twice with the same tokens,
if its indexes are apart from long brackets.  So it is on one line too, in the copy of a target
around it. -/
theorem copied_target_keeps_tokens {limit : Int} {source : Source} {parsed : Parsed}
    (hparsed : ((pico8.parser limit).record source).1 = .ok parsed) {o : Occurrence}
    (ho : o ∈ ((pico8.parser limit).record source).2.occurrences [.notEqual, .reassignment])
    (hkind : o.kind = .reassignment) (hapart : o.IndexesApart source)
    {layout : Option (List Lexeme)}
    (hlayout : ∀ lexemes ∈ layout,
      o.InLayout (((pico8.parser limit).record source).2.occurrences [.notEqual, .reassignment])
        lexemes) :
    o.CopiesTarget source ((pico8.parser limit).record source).2 layout := by
  obtain ⟨tree, _, _, htree, hrow, hdesugars, -, -⟩ := output_of_record hparsed
  generalize ((pico8.parser limit).record source).2 = recorder at ho hlayout hrow hdesugars ⊢
  obtain ⟨before, target, value, more, mark, inTarget, inValue, first, second, hitems, h,
    hfilter⟩ := hdesugars.of_mem ho hkind
  obtain ⟨hinTarget, hinValue⟩ := h.filter_eq hfilter
  obtain ⟨header, others, hall, hheader, hfits⟩ := each_of_whole htree
  have hchars : source.chars = Item.textOf (tree.items .symbol) := by
    rw [Tree.textOf_items]
    simpa [Tree.textOfAll] using htree.toMatch.text_eq
  rw [hitems] at hrow hchars hall
  have hstarts : ∃ item ∈ (target ++ ⟨.extension, [mark, '=']⟩ :: (value ++ more)).head?,
      item.role = .word ∨ item.text = ['('] := by
    obtain ⟨item, hitem, hplain⟩ := h.starts
    exact ⟨item, by rw [List.head?_append, Option.mem_def.mp hitem]; rfl, hplain⟩
  have hrowRest := hrow.right
  have htargetFits := (Item.each_append.mp (Item.each_of_header hall.symm hheader hstarts hfits)).1
  rw [List.append_nil] at htargetFits
  have htargetApart := h.each_apart hrowRest hapart
    ⟨Item.textOf before, by rw [hchars, Item.textOf_append, Item.textOf_append],
      (Nat.zero_add _).symm⟩
  -- The layout of a target around it has the comments and strings of the whole assignment.
  have hsplit : target ++ ⟨.extension, [mark, '=']⟩ :: (value ++ more) =
      (target ++ ⟨.extension, [mark, '=']⟩ :: (value ++ [])) ++ more := by simp
  rw [hsplit] at hrowRest
  have hassigned := hrowRest.left
  have hlayouts : ∀ lexemes ∈ layout, Item.Row source lexemes (0 + Item.width before)
      (target ++ ⟨.extension, [mark, '=']⟩ :: (value ++ [])) := by
    intro lexemes hlexemes
    obtain ⟨outer, houter, houterKind, rfl, operator, hoperator, hbetween⟩ :=
      hlayout lexemes hlexemes
    obtain ⟨_, _, _, _, _, _, _, _, _, -, hassigns, -⟩ := hdesugars.of_mem houter houterKind
    rw [Option.mem_def, hassigns.operator_eq] at hoperator
    obtain rfl := Option.some.inj hoperator
    simp only [Occurrence.between, Bool.and_eq_true, decide_eq_true_eq] at hbetween
    have hoffset := h.offset_eq
    have hstop := h.stop_eq
    have houterOffset := hassigns.offset_eq
    rw [hassigns.layout_eq]
    refine hassigned.restrict (by omega) ?_
    simp only [Item.width_append, Item.width_cons, Item.width_nil, List.length_cons,
      List.length_nil]
    omega
  rw [Occurrence.CopiesTarget]
  refine ⟨_, _, mark, _, _, Written.render layout.isSome second, target, first, h.offset_eq,
    h.operator_eq, fun steps hsteps => ?_, ?_, ?_, ?_, h.inner.plain_of_mem, rfl, rfl⟩
  · rw [hinTarget, hinValue] at hsteps ⊢
    rw [List.length_append] at hsteps
    exact Desugars.edit_of_assigns h hassigned hlayouts
      (fun _ hlexemes => h.inner.edits hassigned.left (by omega) hlexemes)
      (h.right.edits hassigned.right.tail.left (by omega) fun lexemes hlexemes =>
        (hlayouts lexemes hlexemes).right.tail.left)
  · intro dialect
    have halike := h.inner.alike htargetFits htargetApart hassigned.left.nonempty (by simp) .nil
      (fun last hlast => .inl (h.closes.firm last hlast)) layout.isSome true
    rw [List.append_nil, List.append_nil] at halike
    exact halike.exists_lexes dialect
  · rw [h.offset_eq]
    exact hassigned.left.stands.piece_eq.symm
  · rw [hinTarget]
    exact h.inner

/-- A text with a comment in a target, inside a function that is part of another target. -/
theorem copied_target_keeps_tokens_nested :
    ∃ outer inner recorder,
      ((pico8.parser 0).record (.ofString "t[function()u--c\n.x+=a!=1 end]+=2" "cart")).2 =
        recorder ∧
      recorder.occurrences [.reassignment] = [outer, inner] ∧
      outer.CopiesTarget (.ofString "t[function()u--c\n.x+=a!=1 end]+=2" "cart") recorder none ∧
      inner.CopiesTarget (.ofString "t[function()u--c\n.x+=a!=1 end]+=2" "cart") recorder
        (some outer.layout) := by
  let source := Source.ofString "t[function()u--c\n.x+=a!=1 end]+=2" "cart"
  let outer : Occurrence :=
    ⟨.reassignment, 0, 1, 1, 33, source.chars, some 30, [⟨.comment, 13, 17⟩]⟩
  let inner : Occurrence :=
    ⟨.reassignment, 12, 1, 13, 13, "u--c\n.x+=a!=1".toList, some 19, [⟨.comment, 13, 17⟩]⟩
  obtain ⟨⟨parsed, hparsed⟩, hassigned, hos⟩ :
      (∃ parsed, ((pico8.parser 0).record source).1 = .ok parsed) ∧
        ((pico8.parser 0).record source).2.occurrences [.reassignment] = [outer, inner] ∧
        ((pico8.parser 0).record source).2.occurrences [.notEqual, .reassignment] =
          [outer, inner, ⟨.notEqual, 22, 2, 6, 2, "!=".toList, none, []⟩] := by
    rw [exists_record_eq_ok_iff, recorder_record, recording_eq]
    decide +kernel
  have hbrackets : ∀ k < 30, source.piece (k : Nat) ((k : Int) + 2) ≠ ['[', '['] ∧
      source.piece (k : Nat) ((k : Int) + 2) ≠ ['[', '='] := by decide +kernel
  have hapart : ∀ o ∈ [outer, inner], o.IndexesApart source := by
    intro o ho operator hoperator k hk hlt hpiece
    have hbounds : 0 ≤ o.offset ∧ operator ≤ 30 := by
      simp only [List.mem_cons, List.not_mem_nil, or_false] at ho
      rcases ho with rfl | rfl <;> obtain rfl := Option.some.inj hoperator <;> decide
    obtain ⟨k, rfl⟩ := Int.eq_ofNat_of_zero_le (Int.le_trans hbounds.1 hk)
    have hnone := hbrackets k (by omega)
    exact hpiece.elim (absurd · hnone.1) (absurd · hnone.2)
  refine ⟨outer, inner, _, rfl, hassigned, ?_, ?_⟩
  · exact copied_target_keeps_tokens hparsed (by rw [hos]; exact List.mem_cons_self) rfl
      (hapart outer List.mem_cons_self) nofun
  · refine copied_target_keeps_tokens hparsed (by rw [hos]; simp) rfl (hapart inner (by simp)) ?_
    intro lexemes hlexemes
    obtain rfl := Option.some.inj hlexemes
    exact ⟨outer, by rw [hos]; exact List.mem_cons_self, rfl, rfl, 30, rfl, by decide⟩

end Dialect

/-- Whether no break begins at a character of a text, which goes on with the rest. -/
def Clear : (text rest : List Char) → Prop
  | [], _ => True
  | c :: text, rest =>
      (c ∉ breakCharacters ∧ (c = '-' → StartsOutside ['-'] (text ++ rest)) ∧
        (c = '[' → StartsOutside ['[', '='] (text ++ rest))) ∧ Clear text rest

instance decidableClear : (text rest : List Char) → Decidable (Clear text rest)
  | [], _ => inferInstanceAs (Decidable True)
  | c :: text, rest =>
      have := decidableClear text rest
      have (chars : List Char) : Decidable (StartsOutside chars (text ++ rest)) :=
        Option.decidableForallMem _
      inferInstanceAs (Decidable
        ((c ∉ breakCharacters ∧ (c = '-' → StartsOutside ['-'] (text ++ rest)) ∧
          (c = '[' → StartsOutside ['[', '='] (text ++ rest))) ∧ Clear text rest))

namespace Clear

variable {text more rest : List Char}

theorem not_atBreak (h : Clear text rest) (htext : text ≠ []) : ¬AtBreak (text ++ rest) := by
  cases text with
  | nil => exact absurd rfl htext
  | cons c text => exact not_atBreak_cons h.1.1 h.1.2.1 h.1.2.2

theorem of_append (h : Clear (text ++ more) rest) : Clear more rest := by
  induction text with
  | nil => exact h
  | cons c text ih => exact ih h.2

end Clear

namespace Dialect

variable {dialect : Dialect}

/-- Before the first string literal, the tokens are spelled as the text is. -/
theorem Lexes.of_literal {text literal rest : List Char} {shapes : List TokenShape}
    (h : dialect.Lexes (text ++ (literal ++ rest)) shapes) (hclear : Clear text (literal ++ rest))
    (hliteral : IsLiteral literal) :
    ∃ words : List (List Char), shapes.takeWhile (· ≠ .string) = words.map .spelled ∧
      words.flatten = text := by
  generalize hs : text ++ (literal ++ rest) = s at h
  have hsep : ∀ {text : List Char}, Clear text (literal ++ rest) →
      Takes dialect.grammar gap (text ++ (literal ++ rest)) (text ++ (literal ++ rest)) := by
    intro text hclear
    have hfailed : Derives dialect.grammar (.call "sep") (text ++ (literal ++ rest)) .failed := by
      by_cases htext : text = []
      · rw [htext]
        exact failed_sep_of_isLiteral hliteral rest
      · exact failed_sep_of_not_atBreak (hclear.not_atBreak htext)
    exact (takes_call mem_seps).mpr ⟨_, .starStop hfailed id⟩
  have hends : ∀ {text t : List Char}, Clear text (literal ++ rest) →
      Takes dialect.grammar gap (text ++ (literal ++ rest)) t → t = text ++ (literal ++ rest) := by
    rintro text t hclear ⟨_, htaken⟩
    obtain ⟨_, hstays⟩ := hsep hclear
    cases htaken.deterministic hstays
    rfl
  induction h generalizing text with
  | done padding =>
      subst hs
      have hlength := congrArg List.length (hends hclear padding)
      have hpos := hliteral.one_lt_length
      simp only [List.length_nil, List.length_append] at hlength
      omega
  | @token s taken after shape shapes padding nonempty longest shaped others ih =>
      subst hs
      have hsplit := hends hclear padding
      rw [hsplit] at longest
      by_cases htext : text = []
      · subst htext
        obtain rfl := longest.eq (Alike.longestPrefix_of_isLiteral hliteral rest)
        obtain rfl := shaped.shape_eq (isToken_string hliteral)
        exact ⟨[], rfl, rfl⟩
      · have hbegins := hclear.not_atBreak htext
        obtain ⟨more, rfl⟩ :=
          Alike.prefix_of_isAnyToken hbegins (atBreak_of_isLiteral hliteral rest)
            longest.holds longest.isPrefix
        rw [List.append_assoc] at hsplit
        obtain ⟨words, hwords, rfl⟩ := ih hclear.of_append (List.append_cancel_left hsplit).symm
        cases shape with
        | string =>
            rw [List.append_assoc] at hbegins
            exact absurd (atBreak_of_isLiteral shaped.isLiteral _) hbegins
        | spelled spelling =>
            obtain ⟨rfl, -⟩ := shaped.joined
            exact ⟨spelling :: words, by simpa using hwords, rfl⟩

/-- A bracket behind a value in brackets is read as that of an index, even if it is that of a long
string.  Then a second copy has an index in the place of the string. -/
theorem not_copied_target_keeps_tokens :
    ¬∀ {limit : Int} {source : Source} {parsed : Parsed},
      ((pico8.parser limit).record source).1 = .ok parsed →
        ((pico8.parser limit).record source).2.occurrences [.shortIf] = [] →
          ∀ o ∈ ((pico8.parser limit).record source).2.occurrences [.notEqual, .reassignment],
            o.kind = .reassignment →
              o.CopiesTarget source ((pico8.parser limit).record source).2 none := by
  intro hcopies
  let source := Source.ofString "t[function()a,(b)[[=[\n]=]]=1 end]+=1" "cart"
  let o : Occurrence := ⟨.reassignment, 0, 1, 1, 36, source.chars, some 33, [⟨.string, 18, 25⟩]⟩
  obtain ⟨⟨parsed, hparsed⟩, hshortIf, hos⟩ :
      (∃ parsed, ((pico8.parser 0).record source).1 = .ok parsed) ∧
        ((pico8.parser 0).record source).2.occurrences [.shortIf] = [] ∧
        ((pico8.parser 0).record source).2.occurrences [.notEqual, .reassignment] = [o] := by
    rw [exists_record_eq_ok_iff, recorder_record, recording_eq]
    decide +kernel
  have hcopy := hcopies hparsed hshortIf o (by rw [hos]; exact List.mem_cons_self) rfl
  rw [Occurrence.CopiesTarget, hos] at hcopy
  obtain ⟨_, _, _, lhs, copy, _, _, _, -, hoperator, hwritten, hsame, -⟩ := hcopy
  obtain rfl := Option.some.inj hoperator
  obtain ⟨hlhs, hcopied, -⟩ := hwritten 0 (by decide)
  -- Both copies are what is rendered of the target without any edit.
  have hrendered : ∀ {layout : Option (List Lexeme)} {text : List Char},
      Desugar.renderWith source (Desugar.edits source 0) o.offset 33
        ([o].filter (Occurrence.between o.offset 33)) layout = .ok text →
          (Desugar.renderWith source (fun _ _ => .ok []) 0 33 [] layout).toOption = some text := by
    intro layout text h
    exact congrArg Except.toOption h
  have hfirst : (Desugar.renderWith source (fun _ _ => .ok []) 0 33 [] none).toOption =
      some ("t[function()a,(b)".toList ++ ("[[=[\n]=]]".toList ++ "=1 end]".toList)) := by
        decide +kernel
  have hsecond : (Desugar.renderWith source (fun _ _ => .ok []) 0 33 [] (some o.layout)).toOption =
      some ("t[function()a,(b)[".toList ++ ("\"\"".toList ++ "]=1 end]".toList)) := by
        decide +kernel
  obtain rfl := Option.some.inj (hfirst.symm.trans (hrendered hlhs))
  obtain rfl := Option.some.inj (hsecond.symm.trans (hrendered hcopied))
  obtain ⟨shapes, hlexes, hothers⟩ := hsame pico8
  have hcloses : ClosesFirst 0 "=[\n]=".toList := closesFirst_iff.mpr (by decide)
  have hlong : IsLiteral "[[=[\n]=]]".toList := .long hcloses
  have hempty : Piece.AllFit '"' [] := trivial
  have hquoted : IsLiteral "\"\"".toList := .quoted .double hempty
  obtain ⟨words, hwords, htext⟩ := hlexes.of_literal (by decide) hlong
  obtain ⟨words', hwords', htext'⟩ := hothers.of_literal (by decide) hquoted
  obtain rfl : words = words' :=
    List.map_injective_iff.mpr (fun _ _ => TokenShape.spelled.inj) (hwords.symm.trans hwords')
  exact absurd (htext.symm.trans htext') (by decide)

end Dialect

end CartLua
