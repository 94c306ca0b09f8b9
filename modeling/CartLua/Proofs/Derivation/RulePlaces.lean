import CartLua.Proofs.Derivation.Composition
import CartLua.Proofs.Items.Ends

/-!
# Where the nodes of a rule stand

A capture says where a rule begins and ends, but not what its parts are derived from.  A reader who
is followed up to the node of the rule stands where the rule begins, so that the parts are derived
there from what is left of the text.

From there the occurrences around are seen as well.  Each of them ends before the node, begins
behind it, lies in it or reaches over it.  The last is not plain for a compound assignment that a
statement is part of, since it ends with the last token of its values.  But then the statement lies
in the body of a function, whose keyword `end` comes after it.
-/

namespace CartLua

open Dialect

namespace Walk

/-- Whether a reader of some trees comes to a node, standing at `v` when the node begins. -/
inductive Meets (rule : Rule) (inner : List Tree) (v : Walk) : Walk → List Tree → Prop
  /-- The node is the first tree. -/
  | here (parts : List Tree) : Meets rule inner v v (.node rule inner :: parts)
  /-- The node is inside the first tree. -/
  | inside {w : Walk} {other : Rule} {within : List Tree} (parts : List Tree)
      (inside : Meets rule inner v (w.enter other) within) :
      Meets rule inner v w (.node other within :: parts)
  /-- The node is met later. -/
  | later {w : Walk} (part : Tree) {parts : List Tree}
      (later : Meets rule inner v (w.pass part) parts) : Meets rule inner v w (part :: parts)

variable {rule : Rule} {inner : List Tree} {v w : Walk}

theorem offset_le_passAll (w : Walk) (parts : List Tree) : w.offset ≤ (w.passAll parts).offset := by
  rw [offset_passAll]
  exact Nat.le_add_right _ _

namespace Meets

/-- What is met in a row of trees is met in a part of the row. -/
theorem of_append {as bs : List Tree} (h : Meets rule inner v w (as ++ bs)) :
    Meets rule inner v w as ∨ Meets rule inner v (w.passAll as) bs := by
  induction as generalizing w with
  | nil => exact .inr h
  | cons a as ih =>
      cases h with
      | here => exact .inl (.here as)
      | inside _ inside => exact .inl (.inside as inside)
      | later _ later => exact (ih later).imp (.later a) id

theorem not_nil : ¬Meets rule inner v w [] := nofun

theorem not_chars {taken : List Char} : ¬Meets rule inner v w [.chars taken] := by
  rintro (_ | _ | ⟨_, h⟩)
  exact not_nil h

/-- What is met in a single node is the node, or is inside it. -/
theorem of_node {other : Rule} {within : List Tree}
    (h : Meets rule inner v w [.node other within]) :
    (other = rule ∧ within = inner ∧ w = v) ∨ Meets rule inner v (w.enter other) within := by
  cases h with
  | here => exact .inl ⟨rfl, rfl, rfl⟩
  | inside _ inside => exact .inr inside
  | later _ later => exact absurd later not_nil

/-- A node that is met is a node of the trees. -/
theorem mem_nodes {parts : List Tree} (h : Meets rule inner v w parts) :
    (rule, inner) ∈ Tree.nodesOfAll parts := by
  induction h with
  | here parts => exact List.mem_append_left _ List.mem_cons_self
  | inside parts _ ih => exact List.mem_append_left _ (List.mem_cons_of_mem _ ih)
  | later part _ ih => exact List.mem_append_right _ ih

/-- A node lies in the trees in which it is met. -/
theorem bounds {parts : List Tree} (h : Meets rule inner v w parts) :
    w.offset ≤ v.offset ∧ (v.pass (.node rule inner)).offset ≤ (w.passAll parts).offset := by
  induction h with
  | here parts => exact ⟨Nat.le_refl _, offset_le_passAll _ parts⟩
  | @inside w other within parts _ ih =>
      exact ⟨ih.1, Nat.le_trans ih.2 (offset_le_passAll (w.pass (.node other within)) parts)⟩
  | later part _ ih =>
      rw [offset_pass] at ih
      exact ⟨Nat.le_of_add_right_le ih.1, ih.2⟩

end Meets

mutual

/-- A reader meets a node for every capture of a tree. -/
theorem meets_of_mem_captures {w : Walk} : (t : Tree) → ∀ c ∈ w.captures t, ∃ rule inner v,
    Meets rule inner v w [t] ∧ c = (v.pass (.node rule inner)).capture rule v.offset
  | .chars _, c, hc => by simp [captures] at hc
  | .node rule parts, c, hc => by
      rw [captures, List.mem_append] at hc
      rcases hc with hc | hc
      · obtain ⟨other, inner, v, hmeets, heq⟩ :=
          meets_of_mem_capturesOfAll (w := w.enter rule) parts c hc
        exact ⟨other, inner, v, .inside [] hmeets, heq⟩
      · split at hc
        · exact ⟨rule, parts, w, .here [], List.mem_singleton.mp hc⟩
        · cases hc

theorem meets_of_mem_capturesOfAll {w : Walk} : (parts : List Tree) → ∀ c ∈ w.capturesOfAll parts,
    ∃ rule inner v, Meets rule inner v w parts ∧
      c = (v.pass (.node rule inner)).capture rule v.offset
  | [], c, hc => by simp [capturesOfAll] at hc
  | part :: parts, c, hc => by
      rw [capturesOfAll, List.mem_append] at hc
      rcases hc with hc | hc
      · obtain ⟨rule, inner, v, hmeets, heq⟩ := meets_of_mem_captures part c hc
        refine ⟨rule, inner, v, ?_, heq⟩
        cases hmeets with
        | here => exact .here parts
        | inside _ inside => exact .inside parts inside
        | later _ later => exact absurd later Meets.not_nil
      · obtain ⟨rule, inner, v, hmeets, heq⟩ :=
          meets_of_mem_capturesOfAll (w := w.pass part) parts c hc
        exact ⟨rule, inner, v, .later part hmeets, heq⟩

end

theorem Meets.anchored {parts : List Tree} (h : Meets rule inner v w parts) (hw : w.Anchored) :
    v.Anchored := by
  induction h with
  | here => exact hw
  | @inside _ other _ _ _ ih => exact ih (hw.enter other)
  | later part _ ih => exact ih (hw.pass part)

/-- The last token of a capture ends in it. -/
theorem tokenEnd_le_of_mem_capturesOfAll {parts : List Tree} (hw : w.Anchored) {c : Capture}
    (hc : c ∈ w.capturesOfAll parts) : c.tokenEnd ≤ (w.passAll parts).offset := by
  obtain ⟨rule, inner, v, hmeets, rfl⟩ := meets_of_mem_capturesOfAll parts c hc
  have hstart := (shows_capture (hmeets.anchored hw) rule inner).start_le
  rw [(shows_capture (hmeets.anchored hw) rule inner).ruleStart_eq] at hstart
  have hend := offset_pass v (.node rule inner)
  have hstop := hmeets.bounds.2
  change max ((v.pass (.node rule inner)).capture rule v.offset).start
    (min ((v.pass (.node rule inner)).tokenEnd : Int) (v.pass (.node rule inner)).offset) ≤ _
  omega

end Walk

/-- A node that is met stands where its parts are derived from the text. -/
theorem Derives.of_meets {g : Grammar} {p : Pattern} {s rest : List Char} {parts : List Tree}
    (h : Derives g p s (.matched parts rest)) {rule : Rule} {inner : List Tree} {v w : Walk}
    (hmeets : Walk.Meets rule inner v w parts) :
    ∃ before after, s = before ++ (Tree.textOfAll inner ++ after) ∧
      v.offset = w.offset + before.length ∧
        Derives g rule.body (Tree.textOfAll inner ++ after) (.matched inner after) := by
  have hok : ∀ rule ∈ g.rules, rule.body.terminalsAll (fun _ => true) = true :=
    fun rule _ => rule.body.terminalsAll_true
  let P (parts : List Tree) (s rest : List Char) : Prop := s = Tree.textOfAll parts ++ rest ∧
    ∀ w, Walk.Meets rule inner v w parts → ∃ before after,
      s = before ++ (Tree.textOfAll inner ++ after) ∧ v.offset = w.offset + before.length ∧
        Derives g rule.body (Tree.textOfAll inner ++ after) (.matched inner after)
  suffices hall : P parts s rest from hall.2 w hmeets
  refine of_parts (P := P) hok ?nil ?append ?taken ?passed ?node p.terminalsAll_true h
  case nil => exact fun s => ⟨rfl, fun w hmeets => absurd hmeets Walk.Meets.not_nil⟩
  case append =>
    rintro as bs _ t rest ⟨rfl, has⟩ ⟨rfl, hbs⟩
    refine ⟨by simp, fun w hmeets => ?_⟩
    rcases hmeets.of_append with hmeets | hmeets
    · exact has w hmeets
    · obtain ⟨before, after, hsplit, hoffset, hbody⟩ := hbs _ hmeets
      rw [Walk.offset_passAll, Nat.add_assoc, ← List.length_append] at hoffset
      exact ⟨Tree.textOfAll as ++ before, after, by rw [hsplit, List.append_assoc], hoffset, hbody⟩
  case taken =>
    intro t s count _ _
    refine ⟨?_, fun w hmeets => absurd hmeets Walk.Meets.not_chars⟩
    simp [Tree.textOfAll, Tree.text]
  case passed =>
    exact fun c s => ⟨rfl, fun w hmeets => absurd hmeets Walk.Meets.not_chars⟩
  case node =>
    rintro name other within _ rest - hbody ⟨rfl, hwithin⟩
    have htext : Tree.textOfAll [.node other within] = Tree.textOfAll within := by
      simp [Tree.textOfAll, Tree.text]
    refine ⟨by rw [htext], fun w hmeets => ?_⟩
    rcases hmeets.of_node with ⟨rfl, rfl, rfl⟩ | hmeets
    · exact ⟨[], rest, rfl, rfl, hbody⟩
    · exact hwithin (w.enter other) hmeets

/-! ## The last part of a match -/

namespace Pattern

mutual

/-- Whether every match of a pattern ends with a rule. -/
def closedBy (name : String) : Pattern → Bool
  | ref _ called => called == name
  | must body => body.closedBy name
  | seq items => lastClosedBy name items
  | choice alternatives => allClosedBy name alternatives
  | repeatUntil _ stop _ => stop.closedBy name
  | _ => false

/-- Whether every match of the last of several patterns does. -/
def lastClosedBy (name : String) : List Pattern → Bool
  | [] => false
  | item :: items => items.isEmpty && item.closedBy name || lastClosedBy name items

/-- Whether every match of each of several patterns does. -/
def allClosedBy (name : String) : List Pattern → Bool
  | [] => true
  | item :: items => item.closedBy name && allClosedBy name items

end

theorem closedBy_of_mem {name : String} {items : List Pattern} {item : Pattern}
    (hitems : allClosedBy name items = true) (hmem : item ∈ items) :
    item.closedBy name = true :=
  forall_mem_of_cons (P := fun items => allClosedBy name items = true)
    (fun _ _ h => by rwa [allClosedBy, Bool.and_eq_true] at h) hitems hmem

end Pattern

/-- A match of a pattern that is closed by a rule has a node of that rule for its last tree. -/
theorem Match.exists_closing {dialect : Dialect} {rule : Rule} (hrule : rule ∈ dialect.rules)
    {p : Pattern} {s rest : List Char} {parts : List Tree}
    (h : Match dialect.grammar p s parts rest) (hp : p.closedBy rule.name = true) :
    ∃ front inner middle, parts = front ++ [.node rule inner] ∧
      Match dialect.grammar rule.body middle inner rest := by
  induction h with
  | @seqCons item items _ _ _ _ _ first others ihfirst ihothers =>
      rw [Pattern.closedBy, Pattern.lastClosedBy, Bool.or_eq_true, Bool.and_eq_true] at hp
      rcases hp with ⟨hlast, hitem⟩ | hothers
      · obtain rfl := List.isEmpty_iff.mp hlast
        obtain ⟨rfl, rfl⟩ := seq_nil_iff.mp others
        rw [List.append_nil]
        exact ihfirst hitem
      · obtain ⟨front, inner, middle, rfl, hinner⟩ := ihothers hothers
        exact ⟨_ ++ front, inner, middle, (List.append_assoc _ _ _).symm, hinner⟩
  | choice hmem _ ih => exact ih (Pattern.closedBy_of_mem hp hmem)
  | untilHere _ ih => exact ih hp
  | untilMore _ _ _ ihothers =>
      obtain ⟨front, inner, middle, rfl, hinner⟩ := ihothers hp
      exact ⟨_ ++ front, inner, middle, (List.append_assoc _ _ _).symm, hinner⟩
  | must _ ih => exact ih hp
  | @ref site name s rest parts inner _ =>
      obtain rfl : name = rule.name := beq_iff_eq.mp hp
      obtain ⟨taken, rfl, htaken⟩ := (Match.rule_iff (rule?_grammar hrule)).mp inner
      exact ⟨[], taken, _, rfl, htaken⟩
  | _ => cases hp

/-! ## Occurrences around a node -/

/-- Whether an occurrence lies beside a stretch of text or reaches over it. -/
def Capture.Clears (c : Capture) (start stop : Nat) : Prop :=
  c.tokenEnd ≤ start ∨ stop ≤ c.start ∨ c.start ≤ start ∧ stop ≤ c.tokenEnd

namespace Dialect

/-- The rules that expressions and assignments lead to, but for the statements in functions. -/
def phrases : List String :=
  (lexicalRules ++ listRules ++ valueRules ++ chainRules ++ tierRules pico8 ++
    chainStatementRules pico8).map Rule.name

theorem calls_phrases : (rules pico8).all (fun rule => !phrases.contains rule.name ||
    rule.name == functionBody.name || rule.body.callsWithin phrases) = true := by
  decide +kernel

/-- Only the bodies of functions lead from phrases to other rules. -/
theorem callsWithin_phrases {rule : Rule} (hrule : rule ∈ rules pico8)
    (hname : phrases.contains rule.name = true) (hbody : rule.name ≠ functionBody.name) :
    rule.body.callsWithin phrases = true := by
  have hcalls := List.all_eq_true.mp calls_phrases rule hrule
  rw [hname] at hcalls
  simpa [hbody] using hcalls

/-- A rule of statements is neither a phrase nor padding. -/
structure IsStatement (rule : Rule) : Prop where
  not_phrase : phrases.contains rule.name = false
  not_padding : paddingRules.contains rule.name = false

end Dialect

namespace Walk

variable {rule : Rule} {inner : List Tree} {v w : Walk}

/-- No padding leads to a statement. -/
theorem Plain.enter_of_meets (hw : w.Plain) {other : Rule} {within : List Tree}
    (hderived : Tree.Derived [.node other within]) (hrule : IsStatement rule)
    (hmeets : Meets rule inner v (w.enter other) within) : (w.enter other).Plain := by
  have hunpadded : paddingRules.contains other.name ≠ true := by
    intro hpadded
    have hname := names_of_padding hderived hpadded _ (Meets.inside [] hmeets).mem_nodes
    rw [hrule.not_padding] at hname
    cases hname
  have hplain : (other.padding || other.quiet) = false :=
    Bool.eq_false_iff.mpr fun h => hunpadded (padding_of_mem hderived.node.1 h)
  obtain ⟨hpadding, hquiet⟩ := Bool.or_eq_false_iff.mp hplain
  exact hw.enter hpadding hquiet

namespace Meets

variable {parts : List Tree}

/-- In the body of a function comes a keyword behind a statement. -/
theorem le_tokenEnd_of_functionBody (hw : w.Plain) (hrule : IsStatement rule) {s rest : List Char}
    (hmatch : Match pico8.grammar functionBody.body s parts rest)
    (h : Meets rule inner v w parts) :
    (v.pass (.node rule inner)).offset ≤ (w.passAll parts).tokenEnd := by
  have hend : keyRule "end" ∈ rules pico8 := keyRule_mem (by decide)
  obtain ⟨front, taken, _, rfl, hkey⟩ := hmatch.exists_closing hend (by decide)
  rw [of_keyRule hkey] at h ⊢
  have hinside : Meets rule inner v w front := by
    refine h.of_append.resolve_right fun hlast => ?_
    rcases hlast.of_node with ⟨rfl, -⟩ | hlast
    · exact absurd hrule.not_phrase (by decide)
    · exact not_chars hlast
  have hle := hinside.bounds.2
  have hlast : (w.passAll (front ++ [.node (keyRule "end") [.chars "end".toList]])).tokenEnd =
      (w.passAll front).offset + 3 := by
    rw [passAll_append]
    simp [passAll, Walk.pass, Walk.advance, Walk.enter, Walk.leave, keyRule, hw.padding]
  omega

/-- A statement in a phrase is followed by a token of the phrase.  The induction goes down to the
body of the function that the statement is in. -/
theorem le_tokenEnd (h : Meets rule inner v w parts) (hw : w.Plain) (hrule : IsStatement rule)
    (hderived : Tree.Derived parts)
    (hnames : ∀ other within, Tree.node other within ∈ parts → phrases.contains other.name = true) :
    (v.pass (.node rule inner)).offset ≤ (w.passAll parts).tokenEnd := by
  induction h with
  | here parts =>
      have hname := hnames rule inner List.mem_cons_self
      rw [hrule.not_phrase] at hname
      cases hname
  | later part _ ih =>
      exact ih (hw.pass part) hderived.tail fun other within hmem =>
        hnames other within (List.mem_cons_of_mem part hmem)
  | @inside w other within parts hmeets ih =>
      have henter := hw.enter_of_meets hderived.head hrule hmeets
      have hname := hnames other within List.mem_cons_self
      obtain ⟨hother, s, rest, hmatch⟩ := hderived.head.node
      have hwithin : (v.pass (.node rule inner)).offset ≤
          ((w.enter other).passAll within).tokenEnd := by
        by_cases hbody : other.name = functionBody.name
        · obtain rfl : other = functionBody :=
            eq_of_name_eq hother (by simp [rules, valueRules]) hbody
          exact hmeets.le_tokenEnd_of_functionBody henter hrule hmatch
        · exact ih henter hderived.head.inner
            (hmatch.calls_within (callsWithin_phrases hother hname hbody))
      have hlater := tokenEnd_passAll (hw.pass (.node other within)).tokenEnd_le parts
      exact Nat.le_trans hwithin hlater.1

/-- Around a statement there is no padding. -/
theorem plain (h : Meets rule inner v w parts) (hw : w.Plain) (hrule : IsStatement rule)
    (hderived : Tree.Derived parts) : v.Plain := by
  induction h with
  | here => exact hw
  | inside _ hmeets ih =>
      exact ih (hw.enter_of_meets hderived.head hrule hmeets) hderived.head.inner
  | later part _ ih => exact ih (hw.pass part) hderived.tail

/-- An occurrence behind a stretch of text may begin with the chain before it. -/
theorem clears_of_behind (hw : w.Anchored) {start stop : Nat} (hstart : w.offset ≤ start)
    (part : Tree) (hstop : stop ≤ (w.pass part).offset) {d : Capture}
    (hd : d ∈ (w.pass part).occurrences parts) (hsize : d.ruleStart ≤ d.tokenEnd) :
    d.Clears start stop := by
  have hmem := (List.mem_filter.mp hd).1
  rcases start_of_mem_capturesOfAll parts d hmem with hbegin | ⟨-, a, as, hanchors, hbegin, -⟩
  · exact .inr (.inl (by omega))
  · rw [anchors_pass] at hanchors
    have hanchor := hw a (hanchors ▸ List.mem_cons_self)
    have hrule := (bounds_of_mem_capturesOfAll (hw.pass part) hmem).1
    exact .inr (.inr ⟨by omega, by omega⟩)

/-- An occurrence around a statement reaches over it. -/
theorem clears_of_around (hw : w.Plain) (hrule : IsStatement rule) {other : Rule}
    {within : List Tree} (h : Meets rule inner v (w.enter other) within)
    (hderived : Tree.Derived [.node other within])
    (hkind : ((w.pass (.node other within)).capture other w.offset).isOccurrence = true)
    (hne : other.name ≠ OccurrenceKind.shortIf.name) :
    ((w.pass (.node other within)).capture other w.offset).Clears v.offset
      (v.pass (.node rule inner)).offset := by
  obtain ⟨hother, s, rest, hmatch⟩ := hderived.node
  obtain ⟨kind, hkind⟩ := Option.isSome_iff_exists.mp hkind
  have hname : other.name = kind.name := Recorder.ofName?_eq_some.mp hkind
  cases kind with
  | notEqual =>
      obtain rfl : other = operatorNotEqual :=
        eq_of_name_eq hother (by simp [rules, tierRules, extension]) hname
      rw [of_operatorNotEqual hmatch] at h
      exact absurd h not_chars
  | reassignment =>
      obtain rfl : other = reassignment :=
        eq_of_name_eq hother (by simp [rules, chainStatementRules, extension]) hname
      have henter := hw.enter_of_meets hderived hrule h
      have hlast : (v.pass (.node rule inner)).offset ≤
          (w.pass (.node reassignment within)).tokenEnd :=
        h.le_tokenEnd henter hrule hderived.inner
          (hmatch.calls_within (callsWithin_phrases hother (by decide) (by decide)))
      have hbegin : w.offset ≤ v.offset := h.bounds.1
      have hend := offset_pass v (.node rule inner)
      have hstart := (shows_capture hw.anchored reassignment within).start_le
      rw [(shows_capture hw.anchored reassignment within).ruleStart_eq] at hstart
      refine .inr (.inr ⟨by omega, ?_⟩)
      rw [tokenEnd_capture hw (by omega)]
      omega
  | shortIf => exact absurd hname hne

/-- Where a statement is met, the other occurrences lie inside it, beside it or around it. -/
theorem clears (h : Meets rule inner v w parts) (hw : w.Plain) (hrule : IsStatement rule)
    (hderived : Tree.Derived parts) (hsizes : ∀ d ∈ w.occurrences parts, d.ruleStart ≤ d.tokenEnd)
    {d : Capture} (hd : d ∈ w.occurrences parts) (hne : d.rule ≠ OccurrenceKind.shortIf.name) :
    d ∈ v.occurrences [.node rule inner] ∨
      d.Clears v.offset (v.pass (.node rule inner)).offset := by
  have hsize := hsizes d hd
  induction h with
  | here parts =>
      rw [occurrences_cons, List.mem_append] at hd
      refine hd.imp_right fun hd => ?_
      exact clears_of_behind hw.anchored (Nat.le_refl _) _ (Nat.le_refl _) hd hsize
  | @later w part parts hmeets ih =>
      rw [occurrences_cons] at hd hsizes
      rw [List.forall_mem_append] at hsizes
      rcases List.mem_append.mp hd with hd | hd
      · have hend := tokenEnd_le_of_mem_capturesOfAll hw.anchored (List.mem_filter.mp hd).1
        have hbegin := hmeets.bounds.1
        exact .inr (.inl (Int.le_trans hend (Int.ofNat_le.mpr hbegin)))
      · exact ih (hw.pass part) hderived.tail hsizes.2 hd
  | @inside w other within parts hmeets ih =>
      have henter := hw.enter_of_meets hderived.head hrule hmeets
      rw [occurrences_cons, occurrences_node hw.quiet] at hd hsizes
      simp only [List.forall_mem_append] at hsizes
      rcases List.mem_append.mp hd with hd | hd
      · rcases List.mem_append.mp hd with hd | hd
        · exact ih henter hderived.head.inner hsizes.1.1 hd
        · obtain ⟨hown, hkind⟩ := List.mem_filter.mp hd
          obtain rfl := List.mem_singleton.mp hown
          exact .inr (clears_of_around hw hrule hmeets hderived.head hkind hne)
      · exact .inr (clears_of_behind hw.anchored hmeets.bounds.1 _ hmeets.bounds.2 hd hsize)

end Meets

end Walk

end CartLua
