import CartLua.Proofs.Lexical.Keywords

/-!
# How a match begins

Which alternative of a statement or a chain applies is seen at its beginning: a keyword, a
bracket, the character of a tail.  An alternative that begins otherwise fails there, in
either dialect.
-/

namespace CartLua

open Dialect

namespace Pattern

/-- Whether each match of a pattern begins with one of a starting pattern.  Rules are opened
up to a depth. -/
def opensWith (dialect : Dialect) (start : Pattern → Bool) : Nat → Pattern → Bool
  | 0, p => start p
  | n + 1, seq (lookahead _ _ :: item :: _) => item.opensWith dialect start n
  | n + 1, seq (item :: _) => item.opensWith dialect start n
  | n + 1, choice items => items.all fun item => item.opensWith dialect start n
  | n + 1, plus _ body => body.opensWith dialect start n
  | n + 1, must body => body.opensWith dialect start n
  | n + 1, rule name =>
      ((dialect.rules.find? fun rule => rule.name == name).map fun rule =>
        rule.body.opensWith dialect start n).getD true
  | n + 1, ref site name => start (ref site name) || (rule name).opensWith dialect start n
  | _ + 1, p => start p

/-- Whether a pattern only matches where one of some characters is. -/
def isCharacter (chars : List Char) : Pattern → Bool
  | terminal (.literal (c :: _) false) => chars.contains c
  | terminal (.oneOf others false) => others.all chars.contains
  | terminal .longBracket => chars.contains '['
  | _ => false

/-- Whether a pattern is one of some keywords. -/
def isKey (words : List String) : Pattern → Bool
  | ref none name => words.any fun word => name == keyName word
  | _ => false

end Pattern

variable {dialect : Dialect} {start : Pattern → Bool} {n : Nat} {p : Pattern}
  {s rest : List Char} {parts : List Tree}

/-- A match begins with a match of a starting pattern. -/
theorem Derives.of_opensWith (hp : p.opensWith dialect start n = true)
    (h : Derives dialect.grammar p s (.matched parts rest)) :
    ∃ q more left, start q = true ∧ Derives dialect.grammar q s (.matched more left) := by
  induction n generalizing p s rest parts with
  | zero => exact ⟨p, parts, rest, hp, h⟩
  | succ n ih =>
      cases p with
      | seq items =>
          cases items with
          | nil => exact ⟨_, parts, rest, hp, h⟩
          | cons item items =>
              obtain ⟨_, _, _, first, others, -⟩ := h.of_seq_cons
              cases item with
              | lookahead negated body =>
                  cases items with
                  | nil => exact ih hp first
                  | cons item items =>
                      -- Looking ahead takes nothing, so the next item matches at the same place.
                      obtain ⟨-, rfl⟩ := Match.lookahead_iff.mp first.toMatch
                      obtain ⟨_, _, _, second, -, -⟩ := others.of_seq_cons
                      exact ih hp second
              | _ => exact ih hp first
      | choice items =>
          rw [Pattern.opensWith, List.all_eq_true] at hp
          obtain ⟨item, hitem, hmatch⟩ := h.of_choice
          exact ih (hp item hitem) hmatch
      | plus site body =>
          generalize hx : Answer.matched parts rest = x at h
          cases h with
          | plusMore round _ => exact ih hp round
          | plusStop _ stops => subst hx; exact absurd trivial stops
      | must body =>
          generalize hx : Answer.matched parts rest = x at h
          cases h with
          | @must _ _ x inner =>
              cases x <;> cases hx
              exact ih hp inner
      | rule name =>
          generalize hx : Answer.matched parts rest = x at h
          cases h with
          | @rule _ _ _ x found inner =>
              cases x <;> cases hx
              simp only [rule?_eq] at found
              rw [Pattern.opensWith, found] at hp
              exact ih hp inner
      | ref site name =>
          rw [Pattern.opensWith, Bool.or_eq_true] at hp
          rcases hp with hp | hp
          · exact ⟨_, parts, rest, hp, h⟩
          · cases h with
            | ref _ inner => exact ih hp inner
      | _ => exact ⟨_, parts, rest, hp, h⟩

/-- Where a character begins a match, it stands. -/
theorem Match.head_of_isCharacter {g : Grammar} {chars : List Char}
    (hp : p.isCharacter chars = true) (h : Match g p s parts rest) :
    ∃ c ∈ chars, ∃ t, s = c :: t := by
  cases p with
  | terminal t =>
      cases t with
      | literal cs anyCase =>
          cases cs with
          | nil => cases hp
          | cons c cs =>
              cases anyCase with
              | true => cases hp
              | false =>
                  obtain ⟨-, rfl⟩ := of_literal h
                  exact ⟨c, by simpa [Pattern.isCharacter] using hp, _, rfl⟩
      | oneOf others negated =>
          cases negated with
          | true => cases hp
          | false =>
              obtain ⟨c, hc, -, rfl⟩ := of_oneOf h
              have hall := List.all_eq_true.mp hp c (by simpa using hc)
              exact ⟨c, by simpa using hall, _, rfl⟩
      | longBracket =>
          obtain ⟨t, rfl⟩ := h.of_longBracket
          exact ⟨'[', by simpa [Pattern.isCharacter] using hp, t, rfl⟩
      | _ => cases hp
  | _ => cases hp

namespace Dialect

open Pattern

/-- A pattern that begins with one of some characters only matches where one stands. -/
theorem head_of_opensWith {chars : List Char}
    (hp : p.opensWith dialect (Pattern.isCharacter chars) n = true)
    (h : Derives dialect.grammar p s (.matched parts rest)) : ∃ c ∈ chars, ∃ t, s = c :: t := by
  obtain ⟨q, _, _, hq, hmatch⟩ := h.of_opensWith hp
  exact hmatch.toMatch.head_of_isCharacter hq

/-- Where one of some keywords matches, it stands. -/
theorem key_of_isKey {words : List String} (hp : p.isKey words = true)
    (h : Derives dialect.grammar p s (.matched parts rest)) :
    ∃ word ∈ words, Derives dialect.grammar (key word) s (.matched parts rest) := by
  cases p with
  | ref site name =>
      cases site with
      | none =>
          obtain ⟨word, hword, hname⟩ := List.any_eq_true.mp hp
          obtain rfl := beq_iff_eq.mp hname
          exact ⟨word, hword, h⟩
      | some site => cases hp
  | _ => cases hp

/-- A pattern that begins with one of some keywords only matches where one stands. -/
theorem key_of_opensWith {words : List String}
    (hp : p.opensWith dialect (Pattern.isKey words) n = true)
    (h : Derives dialect.grammar p s (.matched parts rest)) :
    ∃ word ∈ words, ∃ more left, Derives dialect.grammar (key word) s (.matched more left) := by
  obtain ⟨q, more, left, hq, hmatch⟩ := h.of_opensWith hp
  obtain ⟨word, hword, hkey⟩ := key_of_isKey hq hmatch
  exact ⟨word, hword, more, left, hkey⟩

/-- Rules of a chain, with the characters with which their matches begin. -/
def heads : List (String × List Char) :=
  [("variable_tail", ['[', '.']), ("function_call_tail", ['(', '\x7b', '"', '\'', '[', ':']),
    ("bracket_expr", ['('])]

theorem opensWith_heads (dialect : Dialect) :
    heads.all (fun entry => (call entry.1).opensWith dialect (isCharacter entry.2) 13) = true := by
  cases dialect <;> decide

/-- A match of a part of a chain begins with one of its characters. -/
theorem head_of_mem_heads {name : String} {chars : List Char} (hentry : (name, chars) ∈ heads)
    (h : Derives dialect.grammar (call name) s (.matched parts rest)) :
    ∃ c ∈ chars, ∃ t, s = c :: t :=
  head_of_opensWith (List.all_eq_true.mp (opensWith_heads dialect) _ hentry) h

end Dialect

end CartLua
