import CartLua.Grammar.Analysis
import CartLua.Proofs.Derivation.Captures
import CartLua.Proofs.Derivation.Terminals

/-!
# Grammars that can be matched

A match of a grammar is well behaved if every use of a rule finds one, no loop goes
round without taking something, and a rule that reports from an anchor is the last
thing to match inside that anchor.  Each of these is read off the patterns, once it
is known which rules can match nothing and which ones report from outside.
-/

namespace CartLua

namespace Terminal

/-- A check that the terminal takes no more than there is: in any case only the mark
of hexadecimal numerals is matched. -/
def bounded : Terminal → Bool
  | literal cs true => cs == ['0', 'x']
  | _ => true

theorem Bounded.of_bounded {t : Terminal} (ht : t.bounded = true) : t.Bounded := by
  cases t with
  | literal cs anyCase =>
      cases anyCase with
      | false => trivial
      | true =>
          have hcs : cs = ['0', 'x'] := by simpa [bounded] using ht
          subst hcs
          intro s hs hlower
          exact Text.length_of_lower_eq_hexMark hs hlower
  | _ => trivial

end Terminal

namespace Pattern

mutual

/-- Whether a match may report from an anchor outside, when the opening rules may. -/
def opens (opening : List String) : Pattern → Bool
  | terminal _ => false
  | seq items => opensAny opening items
  | choice alternatives => opensAny opening alternatives
  | star _ body => body.opens opening
  | plus _ body => body.opens opening
  | opt body => body.opens opening
  | atMost _ body => body.opens opening
  | lookahead .. => false
  | skipTo stop => stop.opens opening
  | repeatUntil _ stop body => stop.opens opening || body.opens opening
  | must body => body.opens opening
  | rule name => opening.contains name
  | ref _ name => opening.contains name

/-- Whether a match of one of several patterns may. -/
def opensAny (opening : List String) : List Pattern → Bool
  | [] => false
  | item :: items => item.opens opening || opensAny opening items

end

end Pattern

/-- What is known of the rules of a grammar. -/
structure Traits where
  /-- Rules that exist. -/
  defined : List String
  /-- Rules that may match without taking anything. -/
  nullable : List String
  /-- Rules that may report from an anchor outside. -/
  opening : List String

namespace Pattern

mutual

/-- Whether a pattern only uses rules that exist, takes something in every round of a
loop, and keeps what reports from an anchor outside for the end. -/
def sound (traits : Traits) : Pattern → Bool
  | terminal t => t.bounded
  | seq items => soundInOrder traits items
  | choice alternatives => soundAll traits alternatives
  | star _ body =>
      !body.nullable traits.nullable && !body.opens traits.opening && body.sound traits
  | plus _ body =>
      !body.nullable traits.nullable && !body.opens traits.opening && body.sound traits
  | opt body => body.sound traits
  | atMost _ body => !body.opens traits.opening && body.sound traits
  | lookahead _ body => !body.opens traits.opening && body.sound traits
  | skipTo stop => stop.sound traits
  | repeatUntil _ stop body =>
      !body.nullable traits.nullable && !body.opens traits.opening && stop.sound traits &&
        body.sound traits
  | must body => body.sound traits
  | rule name => traits.defined.contains name
  | ref site name => site.isNone && traits.defined.contains name

/-- Whether patterns in a row are sound, the last one of which alone may report from
an anchor outside. -/
def soundInOrder (traits : Traits) : List Pattern → Bool
  | [] => true
  | item :: items =>
      item.sound traits && (items.isEmpty || !item.opens traits.opening) &&
        soundInOrder traits items

/-- Whether all of several patterns are sound. -/
def soundAll (traits : Traits) : List Pattern → Bool
  | [] => true
  | item :: items => item.sound traits && soundAll traits items

end

/-- What a check of a list asks of the head and hands on to the tail, it asks of every item. -/
theorem forall_mem_of_cons {P : List Pattern → Prop} {Q : Pattern → Prop}
    (hcons : ∀ item items, P (item :: items) → Q item ∧ P items) {items : List Pattern}
    (hitems : P items) {item : Pattern} (hmem : item ∈ items) : Q item := by
  induction items with
  | nil => cases hmem
  | cons first others ih =>
      obtain ⟨hfirst, hothers⟩ := hcons first others hitems
      rcases List.mem_cons.mp hmem with rfl | hmem
      · exact hfirst
      · exact ih hothers hmem

theorem sound_of_mem {traits : Traits} {items : List Pattern} {item : Pattern}
    (hitems : soundAll traits items = true) (hmem : item ∈ items) : item.sound traits = true :=
  forall_mem_of_cons (P := fun items => soundAll traits items = true)
    (fun _ _ h => by rwa [soundAll, Bool.and_eq_true] at h) hitems hmem

theorem sound_of_mem_inOrder {traits : Traits} {items : List Pattern} {item : Pattern}
    (hitems : soundInOrder traits items = true) (hmem : item ∈ items) :
    item.sound traits = true :=
  forall_mem_of_cons (P := fun items => soundInOrder traits items = true)
    (fun _ _ h => by
      rw [soundInOrder, Bool.and_eq_true, Bool.and_eq_true] at h
      exact ⟨h.1.1, h.2⟩)
    hitems hmem

/-- The parts of a sound pattern are sound. -/
theorem sound_of_mem_parts {traits : Traits} {p q : Pattern} (hp : p.sound traits = true)
    (hq : q ∈ p.parts) : q.sound traits = true := by
  cases p with
  | seq items => exact sound_of_mem_inOrder hp hq
  | choice alternatives => exact sound_of_mem hp hq
  | repeatUntil site stop body =>
      simp only [sound, Bool.and_eq_true] at hp
      rcases List.mem_cons.mp hq with rfl | hq
      · exact hp.1.2
      · exact List.mem_singleton.mp hq ▸ hp.2
  | terminal t => cases hq
  | rule name => cases hq
  | ref site name => cases hq
  | star site body =>
      simp only [sound, Bool.and_eq_true] at hp
      exact List.mem_singleton.mp hq ▸ hp.2
  | plus site body =>
      simp only [sound, Bool.and_eq_true] at hp
      exact List.mem_singleton.mp hq ▸ hp.2
  | atMost count body =>
      simp only [sound, Bool.and_eq_true] at hp
      exact List.mem_singleton.mp hq ▸ hp.2
  | lookahead negated body =>
      simp only [sound, Bool.and_eq_true] at hp
      exact List.mem_singleton.mp hq ▸ hp.2
  | opt body => exact List.mem_singleton.mp hq ▸ hp
  | skipTo stop => exact List.mem_singleton.mp hq ▸ hp
  | must body => exact List.mem_singleton.mp hq ▸ hp

end Pattern

/-- A grammar whose rules have the traits they are said to have. -/
structure Grammar.Sound (g : Grammar) where
  traits : Traits
  defined : ∀ name, traits.defined.contains name = true →
    g.isLinked none name = true ∧ ∃ rule, g.rule? name = some rule
  sound : ∀ rule ∈ g.rules, rule.body.sound traits = true
  nullable : ∀ rule ∈ g.rules, rule.body.nullable traits.nullable = true →
    traits.nullable.contains rule.name = true
  opening : ∀ rule ∈ g.rules,
    (rule.anchored || (!rule.anchor && rule.body.opens traits.opening)) = true →
      traits.opening.contains rule.name = true

namespace Grammar

variable {g : Grammar} {name : String} {rule : Rule}

theorem mem_of_rule? (h : g.rule? name = some rule) : rule ∈ g.rules := by
  rw [rule?_eq_find?] at h
  exact List.mem_of_find?_eq_some h

theorem name_of_rule? (h : g.rule? name = some rule) : rule.name = name := by
  rw [rule?_eq_find?] at h
  simpa using List.find?_some h

end Grammar

namespace Terminal

theorem ne_nil_of_lower_eq {s cs : List Char} (hcs : cs ≠ [])
    (hlower : Text.lower s = Text.lower cs) : s ≠ [] := by
  rintro rfl
  cases cs with
  | nil => exact hcs rfl
  | cons c cs =>
      simp only [Text.lower, Text.CaseMap.lowerAfter, Text.CaseMap.lowerWide] at hlower
      split at hlower
      · simp at hlower
      · split at hlower
        · simp at hlower
        · split at hlower <;> simp at hlower

/-- Only a terminal that can match nothing leaves the text untouched. -/
theorem nullable_of_stay {t : Terminal} {text : Array Char} {offset : Nat}
    (hstay : t.scan text offset = .stay) : t.nullable = true := by
  cases t with
  | literal cs anyCase =>
      cases anyCase <;> rw [scan] at hstay <;> split at hstay <;> cases hstay
  | oneOf chars negated =>
      rw [scan] at hstay
      split at hstay
      · split at hstay <;> cases hstay
      · cases hstay
  | identifier =>
      rw [scan] at hstay
      split at hstay
      · split at hstay <;> cases hstay
      · cases hstay
  | endOfInput => rfl
  | endOfLine orEnd =>
      rw [scan] at hstay
      split at hstay
      · rename_i hend
        rw [Bool.and_eq_true] at hend
        exact hend.1
      · split at hstay
        · cases hstay
        · split at hstay <;> cases hstay
  | longBracket =>
      rw [scan] at hstay
      split at hstay
      · rw [scanLongBracket] at hstay
        split at hstay
        · dsimp only at hstay
          split at hstay <;> cases hstay
        · cases hstay
      · cases hstay

/-- Whether a terminal takes at least one character where it takes any. -/
def takesSome : Terminal → Bool
  | literal cs _ => !cs.isEmpty
  | _ => true

theorem takesSome_of_nullable {t : Terminal} (ht : t.nullable = false) : t.takesSome = true := by
  cases t <;> simp_all [nullable, takesSome]

/-- Such a terminal takes something when it takes. -/
theorem count_ne_zero_of_take {t : Terminal} (ht : t.takesSome = true) {text : Array Char}
    {offset count : Nat} (htake : t.scan text offset = .take count) : count ≠ 0 := by
  have hlength : ∀ {cs : List Char} {anyCase : Bool},
      (literal cs anyCase).takesSome = true → cs.length ≠ 0 := by
    intro cs anyCase ht
    simpa [takesSome] using ht
  cases taken_of_scan htake with
  | literal starts => exact hlength ht
  | anyCase lower => exact hlength ht
  | oneOf chars negated left => exact Nat.one_ne_zero
  | identifier begins ends => omega
  | lineFeed orEnd starts => exact Nat.one_ne_zero
  | lineBreak orEnd starts => exact Nat.succ_ne_zero 1
  | longBracket opens behind closes => omega

/-- There is something left where a terminal takes something. -/
theorem lt_size_of_take {t : Terminal} {text : Array Char} {offset count : Nat}
    (htake : t.scan text offset = .take count) (hcount : count ≠ 0) : offset < text.size := by
  cases taken_of_scan htake with
  | literal starts =>
      have := Text.le_size_of_startsAt starts
      omega
  | anyCase lower =>
      have hcs := List.ne_nil_of_length_pos (Nat.pos_of_ne_zero hcount)
      have hpiece := List.length_pos_iff.mpr (ne_nil_of_lower_eq hcs lower)
      simp only [Array.length_toList, Array.size_extract] at hpiece
      omega
  | oneOf chars negated left => exact left
  | identifier begins ends => omega
  | lineFeed orEnd starts => exact Text.le_size_of_startsAt starts
  | lineBreak orEnd starts => exact Nat.lt_of_succ_lt (Text.le_size_of_startsAt starts)
  | longBracket opens behind closes => exact Text.le_size_of_startsAt opens

theorem take_ne_nil {t : Terminal} (ht : t.takesSome = true) {s : List Char} {count : Nat}
    (htake : t.scan s.toArray 0 = .take count) : s.take count ≠ [] := by
  have hcount := count_ne_zero_of_take ht htake
  have hsize := lt_size_of_take htake hcount
  rw [List.size_toArray] at hsize
  rw [Ne, List.take_eq_nil_iff, not_or]
  exact ⟨hcount, List.ne_nil_of_length_pos hsize⟩

end Terminal

namespace Match

variable {g : Grammar} {p : Pattern} {s rest : List Char} {parts : List Tree}

theorem not_nullable_of_mem {known : List String} {items : List Pattern} {item : Pattern}
    (hitems : Pattern.anyNullable known items = false) (hmem : item ∈ items) :
    item.nullable known = false :=
  Pattern.forall_mem_of_cons (P := fun items => Pattern.anyNullable known items = false)
    (fun _ _ h => by rwa [Pattern.anyNullable, Bool.or_eq_false_iff] at h) hitems hmem

theorem not_opens_of_mem {opening : List String} {items : List Pattern} {item : Pattern}
    (hitems : Pattern.opensAny opening items = false) (hmem : item ∈ items) :
    item.opens opening = false :=
  Pattern.forall_mem_of_cons (P := fun items => Pattern.opensAny opening items = false)
    (fun _ _ h => by rwa [Pattern.opensAny, Bool.or_eq_false_iff] at h) hitems hmem

/-- A pattern that cannot match nothing matches some text. -/
theorem text_ne_nil (hg : g.Sound) (h : Match g p s parts rest)
    (hp : p.nullable hg.traits.nullable = false) : Tree.textOfAll parts ≠ [] := by
  induction h with
  | take hscan =>
      have htaken := Terminal.take_ne_nil (Terminal.takesSome_of_nullable hp) hscan
      simpa [Tree.textOfAll, Tree.text] using htaken
  | stay hscan =>
      rw [Pattern.nullable, Terminal.nullable_of_stay hscan] at hp
      cases hp
  | seqNil => cases hp
  | seqCons _ _ ihfirst ihothers =>
      rw [Pattern.nullable, Pattern.allNullable, Bool.and_eq_false_iff] at hp
      rw [Tree.textOfAll_append]
      rcases hp with hp | hp
      · exact List.append_ne_nil_of_left_ne_nil (ihfirst hp) _
      · exact List.append_ne_nil_of_right_ne_nil _ (ihothers hp)
  | choice hmem _ ih => exact ih (not_nullable_of_mem hp hmem)
  | starNil => cases hp
  | starCons => cases hp
  | plus _ _ ihround _ =>
      rw [Tree.textOfAll_append]
      exact List.append_ne_nil_of_left_ne_nil (ihround hp) _
  | optNil => cases hp
  | opt => cases hp
  | atMostNil => cases hp
  | atMostCons => cases hp
  | lookahead => cases hp
  | skipHere _ ih => exact ih hp
  | skipPass => simp [Tree.textOfAll, Tree.text]
  | untilHere _ ih => exact ih hp
  | untilMore _ _ _ ihothers =>
      rw [Tree.textOfAll_append]
      exact List.append_ne_nil_of_right_ne_nil _ (ihothers hp)
  | must _ ih => exact ih hp
  | @rule name rule _ _ _ found _ ih =>
      have hbody : rule.body.nullable hg.traits.nullable = false := by
        apply Bool.eq_false_iff.mpr
        intro hbody
        have hknown := hg.nullable rule (Grammar.mem_of_rule? found) hbody
        rw [Grammar.name_of_rule? found] at hknown
        rw [Pattern.nullable, hknown] at hp
        cases hp
      simpa [Tree.textOfAll, Tree.text] using ih hbody
  | ref _ ih => exact ih hp

/-- A pattern that does not report from an anchor outside has no tree that does. -/
theorem opensAny_eq_false (hg : g.Sound) (h : Match g p s parts rest)
    (hp : p.opens hg.traits.opening = false) : Tree.opensAny parts = false := by
  induction h with
  | take => rfl
  | stay => rfl
  | seqNil => rfl
  | seqCons _ _ ihfirst ihothers =>
      rw [Pattern.opens, Pattern.opensAny, Bool.or_eq_false_iff] at hp
      rw [Tree.opensAny_append, ihfirst hp.1, ihothers hp.2]
      rfl
  | choice hmem _ ih => exact ih (not_opens_of_mem hp hmem)
  | starNil => rfl
  | starCons _ _ ihround ihothers =>
      rw [Tree.opensAny_append, ihround hp, ihothers hp]
      rfl
  | plus _ _ ihround ihothers =>
      rw [Tree.opensAny_append, ihround hp, ihothers hp]
      rfl
  | optNil => rfl
  | opt _ ih => exact ih hp
  | atMostNil => rfl
  | atMostCons _ _ ihround ihothers =>
      rw [Tree.opensAny_append, ihround hp, ihothers hp]
      rfl
  | lookahead => rfl
  | skipHere _ ih => exact ih hp
  | skipPass _ ih => exact ih hp
  | untilHere _ ih =>
      rw [Pattern.opens, Bool.or_eq_false_iff] at hp
      exact ih hp.1
  | untilMore _ _ ihround ihothers =>
      have hbody := hp
      rw [Pattern.opens, Bool.or_eq_false_iff] at hbody
      rw [Tree.opensAny_append, ihround hbody.2, ihothers hp]
      rfl
  | must _ ih => exact ih hp
  | @rule name rule _ _ _ found _ ih =>
      have hrule :
          (rule.anchored || (!rule.anchor && rule.body.opens hg.traits.opening)) = false := by
        apply Bool.eq_false_iff.mpr
        intro hrule
        have hknown := hg.opening rule (Grammar.mem_of_rule? found) hrule
        rw [Grammar.name_of_rule? found] at hknown
        rw [Pattern.opens, hknown] at hp
        cases hp
      rw [Bool.or_eq_false_iff, Bool.and_eq_false_iff] at hrule
      rw [Tree.opensAny, Tree.opens, hrule.1]
      rcases hrule.2 with hanchor | hbody
      · simp [hanchor, Tree.opensAny]
      · simp [ih hbody, Tree.opensAny]
  | ref _ ih => exact ih hp

end Match

end CartLua
