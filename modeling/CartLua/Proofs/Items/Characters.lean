import CartLua.Proofs.Fix.ShortIfEnd
import CartLua.Proofs.Items.Basic
import CartLua.Proofs.Lexical.Tokens

/-!
# The characters of items

An item is told by its rule, and the rule says what its characters are: those of a name, a string
literal, a comment.  Of the other characters it is enough to know that they are blanks, or that no
break begins among them.  Quotes belong to string literals.  Two dashes are never taken one by one,
because the grammar passes over padding before it looks for an operator.

Whether padding was passed over is checked along a pattern, and the grammar passes the check rule
by rule.
-/

namespace CartLua

open Dialect Terminal

/-- Whether no blank, no quote and no comment begins at a character of a text, which goes on with
the rest. -/
def Sits : (text rest : List Char) → Prop
  | [], _ => True
  | c :: text, rest =>
      (c ∉ breakCharacters ∧ (c = '-' → StartsOutside ['-'] (text ++ rest))) ∧ Sits text rest

theorem Sits.of_forall {text : List Char} (h : ∀ c ∈ text, c ∉ '-' :: breakCharacters)
    (rest : List Char) : Sits text rest := by
  induction text with
  | nil => trivial
  | cons c text ih =>
      obtain ⟨hc, htext⟩ := List.forall_mem_cons.mp h
      rw [List.mem_cons, not_or] at hc
      exact ⟨⟨hc.2, fun hdash => absurd hdash hc.1⟩, ih htext⟩

theorem Joined.sits {text : List Char} (h : Joined text) (rest : List Char) : Sits text rest := by
  induction text with
  | nil => trivial
  | cons c text ih =>
      obtain ⟨⟨hc, hdash⟩, htext⟩ := h
      rw [List.mem_cons, not_or] at hc
      refine ⟨⟨hc.2, fun hc => ?_⟩, ih htext⟩
      obtain ⟨d, hd, hne⟩ := hdash hc
      obtain ⟨more, rfl⟩ := List.head?_eq_some_iff.mp hd
      rwa [List.cons_append, startsOutside_cons, List.mem_singleton]

namespace Item

/-- Whether the characters of an item in front of a text are such as its role has. -/
def Fits (item : Item) (rest : List Char) : Prop :=
  match item.role with
  | .word => ∀ c ∈ item.text, c ∈ nameCharacters.toList
  | .string => IsLiteral item.text
  | .comment => Comment item.text rest
  | .extension => True
  | .header => False
  | .blank => ∃ c ∈ spaces.toList, item.text = [c]
  | _ => (∃ c ∈ spaces.toList, item.text = [c]) ∨ Sits item.text rest

/-- Whether something holds of each of some items in a row, with the text after it. -/
def Each (P : Item → List Char → Prop) : List Item → List Char → Prop
  | [], _ => True
  | item :: items, rest => P item (textOf items ++ rest) ∧ Each P items rest

theorem each_append {P : Item → List Char → Prop} {as bs : List Item} {rest : List Char} :
    Each P (as ++ bs) rest ↔ Each P as (textOf bs ++ rest) ∧ Each P bs rest := by
  induction as with
  | nil => simp [Each]
  | cons a as ih => simp [Each, ih, and_assoc]

theorem fits_of_blank {role : Role} (hrole : role.isLoose = true) {c : Char}
    (hc : c ∈ spaces.toList) (rest : List Char) : Fits ⟨role, [c]⟩ rest := by
  cases role <;> first | exact ⟨c, hc, rfl⟩ | exact .inl ⟨c, hc, rfl⟩ | cases hrole

theorem fits_of_sits {role : Role} (hrole : role.isLoose = true) (hblank : role ≠ .blank)
    {text rest : List Char} (h : Sits text rest) : Fits ⟨role, text⟩ rest := by
  cases role with
  | blank => exact absurd rfl hblank
  | symbol => exact .inr h
  | raw => exact .inr h
  | _ => cases hrole

end Item

/-! ## Lexical rules -/

namespace Dialect

variable {rule : Rule} {role : Role} {parts : List Tree} {s rest : List Char}

/-- A rule whose match is a word is that of names or that of a keyword. -/
theorem of_ofRule?_word {name : String} (h : Role.ofRule? name = some .word) :
    name = "name" ∨ ∃ word ∈ keywords, name = keyName word := by
  rw [Role.ofRule?] at h
  iterate 5
    split at h
    · cases h
  split at h
  · rename_i hname
    simp only [Bool.or_eq_true, decide_eq_true_eq, List.contains_iff_mem, List.mem_map] at hname
    rcases hname with hname | ⟨word, hword, heq⟩
    · exact .inl hname
    · exact .inr ⟨word, hword, heq.symm⟩
  · cases h

/-- The other lexical rules are told by their role. -/
theorem eq_of_ofRule? {name : String} (h : Role.ofRule? name = some role) :
    (role = .comment → name = "comment") ∧ (role = .string → name = "literal_string") ∧
      (role = .numeral → name = "numeral") ∧ (role = .header → name = "interpreter") ∧
        role.isLoose = false := by
  rw [Role.ofRule?] at h
  repeat (split at h; cases h; simp_all [Role.isLoose])
  cases h

/-- The characters of an item are those that its lexical rule takes. -/
theorem fits_of_lexical (hrule : rule ∈ rules pico8) (hlexical : Role.ofRule? rule.name = some role)
    (hheader : role ≠ .header) (h : Derives pico8.grammar rule.body s (.matched parts rest)) :
    Item.Fits ⟨role, Tree.textOfAll parts⟩ rest := by
  have htakes : Takes pico8.grammar (.call rule.name) s rest := (takes_call hrule).mpr ⟨_, h⟩
  have htext : ∀ {text : List Char}, s = text ++ rest → text = Tree.textOfAll parts := fun hs =>
    List.append_cancel_right (hs.symm.trans h.toMatch.text_eq)
  obtain ⟨hcomment, hstring, hnumeral, -, hloose⟩ := eq_of_ofRule? hlexical
  cases role with
  | word =>
      rcases of_ofRule?_word hlexical with hname | ⟨word, hword, hname⟩
      · obtain rfl : rule = nameRule := eq_of_name_eq hrule (by simp [rules, lexicalRules]) hname
        obtain ⟨_, _, _, hahead, hothers, rfl⟩ := h.of_seq_cons
        obtain ⟨rfl, rfl⟩ := Match.lookahead_iff.mp hahead.toMatch
        obtain ⟨_, _, _, hidentifier, hnil, rfl⟩ := hothers.of_seq_cons
        obtain ⟨rfl, rfl⟩ := Match.seq_nil_iff.mp hnil.toMatch
        obtain ⟨word, rfl, hword⟩ := mem_of_identifier hidentifier
        simpa [Item.Fits, Tree.textOfAll, Tree.text] using hword
      · obtain rfl : rule = keyRule word := eq_of_name_eq hrule (keyRule_mem hword) hname
        rw [of_keyRule h.toMatch]
        simpa [Item.Fits, Tree.textOfAll, Tree.text] using mem_nameCharacters hword
  | string =>
      rw [hstring rfl] at htakes
      obtain ⟨text, hliteral, hs⟩ := takes_literalString.mp htakes
      exact htext hs ▸ hliteral
  | comment =>
      rw [hcomment rfl] at htakes
      obtain ⟨text, htaken, hs⟩ := takes_comment.mp htakes
      exact htext hs ▸ htaken
  | numeral =>
      rw [hnumeral rfl] at htakes
      obtain ⟨text, hnumber, hs⟩ := isNumeral_of_takes htakes
      exact .inr (htext hs ▸ hnumber.joined.sits rest)
  | extension => trivial
  | header => exact absurd rfl hheader
  | _ => cases hloose

end Dialect

/-! ## Other rules -/

/-- What is known not to begin at a place. -/
structure Outlook where
  comment : Bool
  literal : Bool

namespace Outlook

/-- Whether what is known is so at the beginning of a text. -/
structure Holds (view : Outlook) (s : List Char) : Prop where
  comment : view.comment = true → ¬['-', '-'] <+: s
  literal : view.literal = true → Derives pico8.grammar (.call "literal_string") s .failed

theorem Holds.of_comment {clear : Bool} {s : List Char} (h : clear = true → ¬['-', '-'] <+: s) :
    Holds ⟨clear, false⟩ s := ⟨h, nofun⟩

/-- What is known before each round of a loop that may leave a comment behind it. -/
def inLoop (view : Outlook) (clear : Bool) : Outlook := ⟨view.comment && clear, false⟩

@[simp]
theorem inLoop_inLoop (view : Outlook) (clear : Bool) :
    (view.inLoop clear).inLoop clear = view.inLoop clear := by
  simp [inLoop]

theorem Holds.inLoop {view : Outlook} {clear : Bool} {s : List Char} (h : view.Holds s) :
    (view.inLoop clear).Holds s :=
  .of_comment fun hclear => h.comment (Bool.and_eq_true _ _ ▸ hclear).1

/-- What is known where an alternative has failed. -/
def afterFailed (view : Outlook) : Pattern → Outlook
  | .ref none name => ⟨view.comment, view.literal || name == "literal_string"⟩
  | _ => view

theorem Holds.afterFailed {view : Outlook} {p : Pattern} {s : List Char} (h : view.Holds s)
    (hfailed : Derives pico8.grammar p s .failed) : (view.afterFailed p).Holds s := by
  unfold Outlook.afterFailed
  split
  · rename_i name
    refine ⟨h.comment, fun hliteral => ?_⟩
    rcases Bool.or_eq_true _ _ ▸ hliteral with hbefore | hname
    · exact h.literal hbefore
    · obtain rfl := beq_iff_eq.mp hname
      exact hfailed
  · exact h

/-- The rules that may begin with a dash of their own. -/
def dashed : List String :=
  ["unary_operators", "unary_apply", "expr_ten", "expr_nine", "operators_eight",
    "expr_eight", "expr_seven", "expr_six", "expr_five", "expr_four", "expr_three", "expr_two",
    "expr_one", "expression", "expr_list_must", "table_field", "table_field_list"]

/-- Whether a rule may be called at a place, perhaps one inside padding. -/
def admits (view : Outlook) (padding : Bool) (name : String) : Bool :=
  (name != "interpreter" && name != rootName && !lexicalParts.contains name) &&
    (view.comment || !dashed.contains name) &&
    (!padding || name == "comment" || name == sep.name)

end Outlook

/-- Whether a terminal takes only blanks, or outside padding only characters without a break. -/
def Terminal.sitsIn (view : Outlook) (padding : Bool) : Terminal → Bool
  | literal cs anyCase => !padding && !anyCase && cs.all fun c => c ∉ '-' :: breakCharacters
  | oneOf chars false => chars.all fun c =>
      c ∈ spaces.toList || !padding && c ∉ breakCharacters && (c ≠ '-' || view.comment)
  | oneOf _ true => !padding && view.comment && view.literal
  | identifier => !padding
  | endOfInput => true
  | endOfLine _ => false
  | longBracket => false

namespace Pattern

/-- Whether a pattern is a choice that two dashes are one of. -/
def seesDashes : Pattern → Bool
  | choice alternatives => alternatives.any fun
      | terminal (.literal ['-', '-'] false) => true
      | _ => false
  | _ => false

/-- Whether a pattern is the rule of a blank or a comment. -/
def isSep : Pattern → Bool
  | ref none name => name == sep.name
  | _ => false

mutual

/-- Whether no comment begins after a match of a pattern, if none begins before it. -/
def leavesClear (clear : Bool) : Pattern → Bool
  | seq items => allLeaveClear clear items
  | star _ body => body.isSep || clear && body.leavesClear true
  | lookahead negated body => clear || negated && body.seesDashes
  | must body => body.leavesClear clear
  | rule name => name == seps.name
  | ref _ name => name == seps.name
  | _ => false

/-- Whether no comment begins after a match of several patterns in order. -/
def allLeaveClear (clear : Bool) : List Pattern → Bool
  | [] => clear
  | item :: items => allLeaveClear (item.leavesClear clear) items

end

mutual

/-- Whether a pattern takes only blanks, or outside padding only characters without a break, but for
lexical rules. -/
def sitsIn (view : Outlook) (padding : Bool) : Pattern → Bool
  | terminal t => t.sitsIn view padding
  | seq items => allSitIn view padding items
  | choice alternatives => anySitsIn view padding alternatives
  | star _ body => body.sitsIn (view.inLoop (body.leavesClear true)) padding
  | plus _ body => body.sitsIn (view.inLoop (body.leavesClear true)) padding
  | opt body => body.sitsIn view padding
  | lookahead _ _ => true
  | repeatUntil _ stop body => stop.sitsIn (view.inLoop (body.leavesClear true)) padding &&
      body.sitsIn (view.inLoop (body.leavesClear true)) padding
  | must body => body.sitsIn view padding
  | rule name => view.admits padding name
  | ref _ name => view.admits padding name
  | _ => false

/-- Whether several patterns in order do. -/
def allSitIn (view : Outlook) (padding : Bool) : List Pattern → Bool
  | [] => true
  | item :: items => item.sitsIn view padding &&
      allSitIn ⟨item.leavesClear view.comment, false⟩ padding items

/-- Whether each of several alternatives does, when those before it have failed. -/
def anySitsIn (view : Outlook) (padding : Bool) : List Pattern → Bool
  | [] => true
  | item :: items =>
      item.sitsIn view padding && anySitsIn (view.afterFailed item) padding items

end

end Pattern

namespace Dialect

/-- Whether a rule is lexical, or takes only characters without a break. -/
def sitsIn (rule : Rule) : Bool :=
  (Role.ofRule? rule.name).isSome || lexicalParts.contains rule.name || rule.name == rootName ||
    rule.body.sitsIn ⟨Outlook.dashed.contains rule.name, false⟩ rule.padding

theorem sitsIn_rules : (rules pico8).all sitsIn = true := by
  decide

variable {s rest : List Char} {parts : List Tree} {view : Outlook} {padding : Bool}

/-- The rest of a line can always be taken. -/
theorem exists_restOfLine (s : List Char) :
    ∃ rest, Takes pico8.grammar (.skipTo (.terminal (.endOfLine true))) s rest := by
  by_cases hfeed : '\n' ∈ s
  · obtain ⟨line, rest, rfl, hline⟩ := List.eq_append_cons_of_mem hfeed
    exact ⟨rest, takes_restOfLine.mpr ⟨line, hline, .inl rfl⟩⟩
  · exact ⟨[], takes_restOfLine.mpr ⟨s, hfeed, .inr ⟨rfl, rfl⟩⟩⟩

/-- Where padding ends, no comment begins. -/
theorem not_prefix_of_failed_sep (h : Derives pico8.grammar (.call sep.name) s .failed) :
    ¬['-', '-'] <+: s := by
  rintro ⟨t, rfl⟩
  have hcomment : comment ∈ rules pico8 := by simp [rules, lexicalRules]
  have hshort : shortComment ∈ rules pico8 := by simp [rules, lexicalRules]
  obtain ⟨-, hothers⟩ := failed_choice_cons_iff.mp ((failed_call_iff mem_sep).mp h)
  obtain ⟨hfailed, -⟩ := failed_choice_cons_iff.mp hothers
  rcases ((failed_call_iff hcomment).mp hfailed).of_failed_seq with
    hdashes | ⟨_, _, hdashes, hothers⟩
  · exact failed_literal_iff.mp hdashes ⟨t, rfl⟩
  · obtain ⟨-, hs⟩ := Match.of_literal hdashes.toMatch
    obtain rfl := List.append_cancel_left hs
    rcases hothers.of_failed_seq with hchoice | ⟨_, _, _, hnil⟩
    · obtain ⟨-, hothers⟩ := failed_choice_cons_iff.mp hchoice
      obtain ⟨hfailed, -⟩ := failed_choice_cons_iff.mp hothers
      obtain ⟨rest, _, hline⟩ := exists_restOfLine t
      cases ((failed_call_iff hshort).mp hfailed).deterministic hline
    · cases hnil

theorem not_prefix_of_gap (h : Derives pico8.grammar (.rule seps.name) s (.matched parts rest)) :
    ¬['-', '-'] <+: rest := by
  obtain ⟨inner, -, hbody⟩ := derives_of_rule mem_seps h
  exact not_prefix_of_failed_sep hbody.star_done

theorem failed_of_mem {items : List Pattern} (h : Derives pico8.grammar (.choice items) s .failed) :
    ∀ item ∈ items, Derives pico8.grammar item s .failed := by
  induction items with
  | nil => exact nofun
  | cons item items ih =>
      obtain ⟨hitem, hitems⟩ := failed_choice_cons_iff.mp h
      exact List.forall_mem_cons.mpr ⟨hitem, ih hitems⟩

/-- Where a choice fails that two dashes are one of, no comment begins. -/
theorem not_prefix_of_seesDashes {p : Pattern} (hp : p.seesDashes = true)
    (h : Derives pico8.grammar p s .failed) : ¬['-', '-'] <+: s := by
  cases p with
  | choice alternatives =>
      obtain ⟨item, hitem, hdashes⟩ := List.any_eq_true.mp hp
      split at hdashes
      · exact failed_literal_iff.mp (failed_of_mem h _ hitem)
      · cases hdashes
  | _ => cases hp

/-- The characters that a terminal takes sit where they are. -/
theorem each_of_terminal {t : Terminal} (ht : t.sitsIn view padding = true) (hview : view.Holds s)
    (h : Derives pico8.grammar (.terminal t) s (.matched parts rest)) {role : Role}
    (hrole : role.isLoose = true) (hblank : role = .blank → padding = true) :
    Item.Each Item.Fits (Tree.itemsOfAll role parts) rest := by
  have hsits : ∀ {text : List Char}, padding = false → Sits text rest →
      Item.Each Item.Fits (Tree.itemsOfAll role [.chars text]) rest := fun hpadding htext =>
    ⟨Item.fits_of_sits hrole (fun h => Bool.false_ne_true (hpadding.symm.trans (hblank h))) htext,
      trivial⟩
  -- A dash is taken only where no comment begins.
  have hsingle :
      ∀ {c : Char}, s = c :: rest → c ∉ breakCharacters → (c = '-' → view.comment = true) →
      Sits [c] rest := by
    intro c hs hc hdash
    refine ⟨⟨hc, fun hmark d hd hsecond => ?_⟩, trivial⟩
    obtain ⟨more, rfl⟩ := List.head?_eq_some_iff.mp hd
    obtain rfl := List.mem_singleton.mp hsecond
    exact hview.comment (hdash hmark) ⟨more, by rw [hs, hmark]; rfl⟩
  cases t with
  | literal cs anyCase =>
      simp only [Terminal.sitsIn, Bool.and_eq_true, Bool.not_eq_true', List.all_eq_true,
        decide_eq_true_eq] at ht
      obtain ⟨⟨hpadding, rfl⟩, hcs⟩ := ht
      obtain ⟨rfl, -⟩ := Match.of_literal h.toMatch
      exact hsits hpadding (.of_forall hcs rest)
  | oneOf chars negated =>
      obtain ⟨c, hc, rfl, hs⟩ := Match.of_oneOf h.toMatch
      by_cases hspace : c ∈ spaces.toList
      · exact ⟨Item.fits_of_blank hrole hspace _, trivial⟩
      cases negated with
      | false =>
          have hmem := List.all_eq_true.mp ht c (by simpa using hc)
          simp only [hspace, decide_false, Bool.false_or, Bool.and_eq_true, Bool.not_eq_true',
            decide_eq_true_eq, Bool.or_eq_true] at hmem
          exact hsits hmem.1.1 (hsingle hs hmem.1.2 fun hdash => hmem.2.resolve_left (absurd hdash))
      | true =>
          simp only [Terminal.sitsIn, Bool.and_eq_true, Bool.not_eq_true'] at ht
          refine hsits ht.1.1 (hsingle hs ?_ fun _ => ht.1.2)
          intro hmem
          obtain ⟨hdouble, hsingle⟩ := not_quote_of_failed (hs ▸ hview.literal ht.2)
          simp only [breakCharacters, List.mem_cons, hspace, or_false] at hmem
          exact hmem.elim hdouble hsingle
  | identifier =>
      obtain ⟨word, rfl, hword⟩ := mem_of_identifier h
      have hclear : ∀ c ∈ nameCharacters.toList, c ∉ '-' :: breakCharacters :=
        forall_mem_of_all (by decide)
      exact hsits (by simpa [Terminal.sitsIn] using ht)
        (.of_forall (fun c hc => hclear c (hword c hc)) rest)
  | endOfInput =>
      obtain ⟨rfl, -⟩ := Match.of_endOfInput h.toMatch
      trivial
  | _ => cases ht

/-- Behind a loop over padding no comment begins. -/
theorem not_prefix_of_isSep {site : Site} {body : Pattern} (hbody : body.isSep = true)
    (h : Derives pico8.grammar (.star site body) s (.matched parts rest)) :
    ¬['-', '-'] <+: rest := by
  have hdone := h.star_done
  match body, hbody, hdone with
  | .ref none name, hbody, hdone =>
      obtain rfl : name = sep.name := beq_iff_eq.mp hbody
      exact not_prefix_of_failed_sep hdone

/-- Behind a match no comment begins, if the check says so. -/
theorem not_prefix_of_leavesClear {p : Pattern} {clear : Bool} (hp : p.leavesClear clear = true)
    (hclear : clear = true → ¬['-', '-'] <+: s)
    (h : Derives pico8.grammar p s (.matched parts rest)) : ¬['-', '-'] <+: rest := by
  induction h using Derives.matched_induction generalizing clear with
  | seqNil s => exact hclear hp
  | seqCons _ _ ihfirst ihothers => exact ihothers hp fun hmiddle => ihfirst hmiddle hclear
  | starMore _ others ihround ihothers =>
      rcases Bool.or_eq_true _ _ ▸ hp with hbody | hbody
      · exact not_prefix_of_isSep hbody others
      · obtain ⟨rfl, hbody⟩ := Bool.and_eq_true _ _ ▸ hbody
        exact ihothers hp fun _ => ihround hbody hclear
  | @starStop site body s round =>
      rcases Bool.or_eq_true _ _ ▸ hp with hbody | hbody
      · have hloop : Derives pico8.grammar (.star site body) s (.matched [] s) := .starStop round id
        exact not_prefix_of_isSep hbody hloop
      · exact hclear (Bool.and_eq_true _ _ ▸ hbody).1
  | lookaheadHere _ _ => exact hclear (by simpa [Pattern.leavesClear] using hp)
  | lookaheadNot inner =>
      exact (Bool.or_eq_true _ _ ▸ hp).elim hclear fun hbody =>
        not_prefix_of_seesDashes (Bool.and_eq_true _ _ ▸ hbody).2 inner
  | must _ ih => exact ih hp hclear
  | rule found inner _ =>
      obtain rfl := beq_iff_eq.mp hp
      exact not_prefix_of_gap (.rule found inner)
  | ref _ inner _ =>
      obtain rfl := beq_iff_eq.mp hp
      exact not_prefix_of_gap inner
  | _ => cases hp

/-- What is known before each round of a loop. -/
theorem holds_of_round {body : Pattern} (hview : view.Holds s)
    (h : Derives pico8.grammar body s (.matched parts rest)) :
    (view.inLoop (body.leavesClear true)).Holds rest := by
  refine .of_comment fun hclear => ?_
  obtain ⟨hcomment, hbody⟩ := Bool.and_eq_true _ _ ▸ hclear
  exact not_prefix_of_leavesClear hbody (fun _ => hview.comment hcomment) h

theorem each_of_parts {more : List Tree} {middle : List Char} {role : Role}
    (hfirst : Item.Each Item.Fits (Tree.itemsOfAll role parts) middle)
    (hmore : Item.Each Item.Fits (Tree.itemsOfAll role more) rest)
    (hmiddle : middle = Tree.textOfAll more ++ rest) :
    Item.Each Item.Fits (Tree.itemsOfAll role (parts ++ more)) rest := by
  rw [Tree.itemsOfAll_append, Item.each_append, Tree.textOf_itemsOfAll, ← hmiddle]
  exact ⟨hfirst, hmore⟩

/-- The check of a loop says the same before every round. -/
theorem sitsIn_star_again {site : Site} {body : Pattern}
    (hp : (Pattern.star site body).sitsIn view padding = true) :
    (Pattern.star site body).sitsIn (view.inLoop (body.leavesClear true)) padding = true := by
  rwa [Pattern.sitsIn, Outlook.inLoop_inLoop]

theorem sitsIn_until_again {site : Site} {stop body : Pattern}
    (hp : (Pattern.repeatUntil site stop body).sitsIn view padding = true) :
    (Pattern.repeatUntil site stop body).sitsIn (view.inLoop (body.leavesClear true)) padding =
      true := by
  rwa [Pattern.sitsIn, Outlook.inLoop_inLoop]

/-- A lexical rule is one item; any other one has those of its body, whose role is that of padding
only inside padding rules. -/
theorem each_of_rule {rule : Rule} (hrule : rule ∈ rules pico8)
    (hadmits : view.admits padding rule.name = true) (hview : view.Holds s) {role : Role}
    (hrole : role.isLoose = true) (hblank : role = .blank → padding = true)
    (hinner : Derives pico8.grammar rule.body s (.matched parts rest))
    (hbody : ∀ {view : Outlook} {role : Role}, rule.body.sitsIn view rule.padding = true →
      view.Holds s → role.isLoose = true → (role = .blank → rule.padding = true) →
        Item.Each Item.Fits (Tree.itemsOfAll role parts) rest) :
    Item.Each Item.Fits (Tree.itemsOfAll role [.node rule parts]) rest := by
  simp only [Outlook.admits, Bool.and_eq_true, bne_iff_ne, Bool.not_eq_true', Bool.or_eq_true,
    beq_iff_eq] at hadmits
  obtain ⟨⟨⟨⟨hheader, hroot⟩, hlexicalPart⟩, hdashed⟩, hpadded⟩ := hadmits
  rw [Tree.itemsOfAll, Tree.itemsOfAll, List.append_nil]
  cases hlexical : Role.ofRule? rule.name with
  | some lexical =>
      rw [Tree.items_of_lexical hlexical]
      have hname := (eq_of_ofRule? hlexical).2.2.2.1
      exact ⟨fits_of_lexical hrule hlexical (fun h => hheader (hname h)) hinner, trivial⟩
  | none =>
      rw [Tree.items_of_none hlexical]
      have hsits := List.all_eq_true.mp sitsIn_rules rule hrule
      simp only [sitsIn, hlexical, Option.isSome_none, hlexicalPart, beq_eq_false_iff_ne.mpr hroot,
        Bool.false_or] at hsits
      have hbefore : Outlook.Holds ⟨Outlook.dashed.contains rule.name, false⟩ s :=
        .of_comment fun hname => hview.comment
          (hdashed.resolve_right fun hnone => Bool.false_ne_true (hnone.symm.trans hname))
      refine hbody hsits hbefore (Role.isLoose_inside hrole rule) fun hinside => ?_
      -- Padding rules aside, only comments and blanks are called inside padding.
      by_contra hplain
      rw [Role.inside, if_neg hplain] at hinside
      split at hinside
      · cases hinside
      · rcases hpadded with (hpadded | hcomment) | hsep
        · exact Bool.false_ne_true (hpadded.symm.trans (hblank hinside))
        · rw [hcomment] at hlexical
          cases hlexical
        · obtain rfl : rule = sep := eq_of_name_eq hrule mem_sep hsep
          exact hplain rfl

/-- The items of a match have the characters of their roles. -/
theorem each_of_sitsIn {p : Pattern} (hp : p.sitsIn view padding = true) (hview : view.Holds s)
    {role : Role} (hrole : role.isLoose = true) (hblank : role = .blank → padding = true)
    (h : Derives pico8.grammar p s (.matched parts rest)) :
    Item.Each Item.Fits (Tree.itemsOfAll role parts) rest := by
  induction h using Derives.matched_induction generalizing view padding role with
  | terminal h => exact each_of_terminal hp hview h hrole hblank
  | seqCons first others ihfirst ihothers =>
      obtain ⟨hitem, hitems⟩ := Bool.and_eq_true _ _ ▸ hp
      refine each_of_parts (ihfirst hitem hview hrole hblank)
        (ihothers hitems (.of_comment fun hclear => ?_) hrole hblank) others.toMatch.text_eq
      exact not_prefix_of_leavesClear hclear hview.comment first
  | choiceHere _ ih => exact ih (Bool.and_eq_true _ _ ▸ hp).1 hview hrole hblank
  | choiceNext first _ ih =>
      exact ih (Bool.and_eq_true _ _ ▸ hp).2 (hview.afterFailed first) hrole hblank
  | starMore round others ihround ihothers =>
      have hmiddle := holds_of_round hview round
      exact each_of_parts (ihround hp hview.inLoop hrole hblank)
        (ihothers (sitsIn_star_again hp) hmiddle hrole hblank) others.toMatch.text_eq
  | plusMore round others ihround ihothers =>
      have hmiddle := holds_of_round hview round
      exact each_of_parts (ihround hp hview.inLoop hrole hblank)
        (ihothers (sitsIn_star_again hp) hmiddle hrole hblank) others.toMatch.text_eq
  | optHere _ ih => exact ih hp hview hrole hblank
  | untilHere _ ih => exact ih (Bool.and_eq_true _ _ ▸ hp).1 hview.inLoop hrole hblank
  | untilMore _ round others ihround ihothers =>
      have hmiddle := holds_of_round hview round
      exact each_of_parts (ihround (Bool.and_eq_true _ _ ▸ hp).2 hview.inLoop hrole hblank)
        (ihothers (sitsIn_until_again hp) hmiddle hrole hblank) others.toMatch.text_eq
  | must _ ih => exact ih hp hview hrole hblank
  | rule found inner ih =>
      have hrule := rules_grammar pico8 ▸ Grammar.mem_of_rule? found
      obtain rfl := Grammar.name_of_rule? found
      exact each_of_rule hrule hp hview hrole hblank inner fun hsits hbefore hloose hpadded =>
        ih hsits hbefore hloose hpadded
  | ref _ _ ih => exact ih hp hview hrole hblank
  -- Nothing is taken.
  | seqNil | starStop | optNot | lookaheadHere | lookaheadNot => trivial
  | _ => cases hp

/-- The items of a whole text have the characters of their roles, behind a first line that names an
interpreter. -/
theorem each_of_whole {tree : Tree}
    (h : Derives pico8.grammar (.rule rootName) s (.matched [tree] [])) :
    ∃ first others, tree.items .symbol = first ++ others ∧
      (∀ item ∈ first, item.role = .header ∧ item.text.head? = some '#') ∧
        Item.Each Item.Fits others [] := by
  have hprogram : program ∈ rules pico8 := by simp [rules, definitionRules]
  have hinterpreter : interpreter ∈ rules pico8 := by simp [rules, lexicalRules]
  obtain ⟨inner, hinner, hbody⟩ := derives_of_rule hprogram h
  obtain ⟨rfl, -⟩ := List.cons.inj hinner
  obtain ⟨first, middle, _, hfirst, hothers, rfl⟩ := hbody.of_seq_cons
  obtain ⟨others, _, _, hlist, hnil, rfl⟩ := hothers.of_seq_cons
  obtain ⟨rfl, rfl⟩ := Match.seq_nil_iff.mp hnil.toMatch
  refine ⟨Tree.itemsOfAll .symbol first, Tree.itemsOfAll .symbol others, ?_, ?_, ?_⟩
  · rw [Tree.items_of_none rfl, List.append_nil, Tree.itemsOfAll_append]
    rfl
  · rcases Match.opt_iff.mp hfirst.of_must.toMatch with ⟨rfl, -⟩ | hheader
    · exact fun item hitem => absurd hitem List.not_mem_nil
    · obtain ⟨taken, rfl, htaken⟩ := of_call hinterpreter hheader
      obtain ⟨_, _, _, hmark, -, rfl⟩ := Match.seq_cons_iff.mp htaken
      obtain ⟨mark, hmem, rfl, -⟩ := Match.of_oneOf hmark
      obtain rfl : mark = '#' := by simpa using hmem
      rw [Tree.itemsOfAll, Tree.items_of_lexical (show Role.ofRule? _ = some .header from rfl)]
      exact List.forall_mem_singleton.mpr ⟨rfl, rfl⟩
  · have hnothing : Outlook.Holds ⟨false, false⟩ middle :=
      ⟨fun h => absurd h Bool.false_ne_true, fun h => absurd h Bool.false_ne_true⟩
    exact @each_of_sitsIn _ _ _ _ false _ (by decide) hnothing _ rfl (by decide) hlist.of_must

end Dialect

end CartLua
