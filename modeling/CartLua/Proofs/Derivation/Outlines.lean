import CartLua.Proofs.Lexical.Names

/-!
# Texts in outline

How a pattern is matched can often be told from the outline of a text: some characters, names of
which it only matters that they are names, and perhaps the end.  An outline may also stop before
the text does, and then nothing is known of what follows.

A pattern is looked at here on an outline instead of a text.  Where this comes to an answer, the
pattern answers alike on every text of that outline; where more of the text would have to be
known, it comes to none.
-/

namespace CartLua

open Dialect

/-- A part of a text: a character, a name that ends there, or the end of the text. -/
inductive Token
  | char (c : Char)
  | name (n : Identifier)
  | finish

/-- A part of an outline. -/
inductive Mark
  | char (c : Char)
  /-- A name, which ends here. -/
  | name
  /-- The end of the text. -/
  | finish
  deriving DecidableEq, Repr

/-- What is known of the beginning of a text. -/
abbrev Outline := List Mark

namespace Token

def mark : Token → Mark
  | char c => .char c
  | name _ => .name
  | finish => .finish

/-- The outline of tokens. -/
def outline (ts : List Token) : Outline := ts.map mark

/-- The text of tokens before `rest`. -/
def text : List Token → List Char → List Char
  | [], rest => rest
  | char c :: ts, rest => c :: text ts rest
  | name n :: ts, rest => n.chars ++ text ts rest
  | finish :: _, _ => []

/-- Whether names end before what follows them, and the text at its end. -/
def Fit : List Token → List Char → Prop
  | [], _ => True
  | char _ :: ts, rest => Fit ts rest
  | name _ :: ts, rest => EndsWord (text ts rest) ∧ Fit ts rest
  | finish :: ts, rest => ts = [] ∧ rest = []

/-- The tokens of a whole text. -/
def ofChars (cs : List Char) : List Token := cs.map char ++ [finish]

@[simp]
theorem text_ofChars (cs : List Char) : text (ofChars cs) [] = cs := by
  induction cs with
  | nil => rfl
  | cons c cs ih => exact congrArg (c :: ·) ih

theorem fit_ofChars (cs : List Char) : Fit (ofChars cs) [] := by
  induction cs with
  | nil => exact ⟨rfl, rfl⟩
  | cons c cs ih => exact ih

@[simp]
theorem text_map_char (cs rest : List Char) : text (cs.map char) rest = cs ++ rest := by
  induction cs with
  | nil => rfl
  | cons c cs ih => exact congrArg (c :: ·) ih

theorem fit_map_char (cs rest : List Char) : Fit (cs.map char) rest := by
  induction cs with
  | nil => trivial
  | cons c cs ih => exact ih

theorem outline_map_char (cs : List Char) : outline (cs.map char) = cs.map .char := by
  rw [outline, List.map_map]
  rfl

theorem Fit.of_suffix {ts later : List Token} {rest : List Char} (h : Fit ts rest)
    (hlater : later <:+ ts) : Fit later rest := by
  induction ts with
  | nil => rwa [List.suffix_nil.mp hlater]
  | cons t ts ih =>
      rcases List.suffix_cons_iff.mp hlater with heq | htail
      · exact heq ▸ h
      · cases t with
        | char c => exact ih h htail
        | name n => exact ih h.2 htail
        | finish =>
            obtain ⟨rfl, -⟩ := h
            rw [List.suffix_nil.mp htail]
            trivial

end Token

/-- What a pattern makes of an outline. -/
inductive Sight
  /-- It matches what is before the outline that is left. -/
  | takes (left : Outline)
  | fails
  /-- The text is in error. -/
  | breaks
  /-- The outline does not tell. -/
  | unclear
  deriving DecidableEq, Repr

namespace Sight

/-- What is seen of a pattern and of others after it. -/
def andThen (x : Sight) (others : Outline → Sight) : Sight :=
  match x with
  | takes left => others left
  | x => x

/-- What is seen of a pattern and of others in its place. -/
def orElse (x : Sight) (others : Unit → Sight) : Sight :=
  match x with
  | fails => others ()
  | x => x

/-- What is seen of a pattern that only looks ahead. -/
def looked (negated : Bool) (o : Outline) : Sight → Sight
  | takes _ => if negated then fails else takes o
  | fails => if negated then takes o else fails
  | x => x

/-- What is seen of a committed pattern. -/
def committed : Sight → Sight
  | fails => breaks
  | x => x

/-- Whether a pattern answers on a text as it is seen on its outline. -/
def Holds (g : Grammar) (p : Pattern) (ts : List Token) (rest : List Char) : Sight → Prop
  | takes left => ∃ parts later, later <:+ ts ∧ Token.outline later = left ∧
      Derives g p (Token.text ts rest) (.matched parts (Token.text later rest))
  | fails => Derives g p (Token.text ts rest) .failed
  | breaks => Derives g p (Token.text ts rest) .broken
  | unclear => True

end Sight

namespace Terminal

/-- What a text makes of an outline. -/
def lookText : List Char → Outline → Sight
  | [], o => .takes o
  | c :: cs, .char d :: o => if c = d then lookText cs o else .fails
  | c :: _, .name :: _ => if isIdentifierFirst c then .unclear else .fails
  | _ :: _, .finish :: _ => .fails
  | _ :: _, [] => .unclear

/-- What a terminal makes of an outline. -/
def look (o : Outline) : Terminal → Sight
  | literal cs false => lookText cs o
  | literal cs true =>
      if cs = ['0', 'x'] then
        match o with
        | .char d :: _ => if d.toNat < 0x80 ∧ d.toLower ≠ '0' then .fails else .unclear
        | .name :: _ => .fails
        | .finish :: _ => .fails
        | [] => .unclear
      else .unclear
  | oneOf chars false =>
      match o with
      | .char d :: left => if chars.contains d then .takes left else .fails
      | .name :: _ => if chars.all (!isIdentifierFirst ·) then .fails else .unclear
      | .finish :: _ => .fails
      | [] => .unclear
  | oneOf _ true => .unclear
  | identifier =>
      match o with
      | .char d :: _ => if isIdentifierFirst d then .unclear else .fails
      | .name :: left => .takes left
      | .finish :: _ => .fails
      | [] => .unclear
  | endOfInput =>
      match o with
      | .char _ :: _ => .fails
      | .name :: _ => .fails
      | .finish :: _ => .takes o
      | [] => .unclear
  | endOfLine _ => .unclear
  | longBracket =>
      match o with
      | .char '[' :: .char d :: _ => if d = '[' ∨ d = '=' then .unclear else .fails
      | [.char '['] => .unclear
      | _ :: _ => .fails
      | [] => .unclear

end Terminal

namespace Pattern

/-- What is seen of patterns one after the other. -/
def lookInOrder (step : Pattern → Outline → Sight) : List Pattern → Outline → Sight
  | [], o => .takes o
  | item :: items, o => (step item o).andThen (lookInOrder step items)

/-- What is seen of patterns tried in turn. -/
def lookInTurn (step : Pattern → Outline → Sight) (o : Outline) : List Pattern → Sight
  | [] => .fails
  | item :: items => (step item o).orElse fun _ => lookInTurn step o items

/-- What is seen of a loop. -/
def lookRounds (body : Outline → Sight) : (rounds : Nat) → Outline → Sight
  | 0, _ => .unclear
  | rounds + 1, o =>
      match body o with
      | .takes left => lookRounds body rounds left
      | .fails => .takes o
      | x => x

/-- What a pattern makes of an outline, with rules opened up to a depth. -/
def look (dialect : Dialect) : Nat → Pattern → Outline → Sight
  | 0, _, _ => .unclear
  | _ + 1, terminal t, o => t.look o
  | n + 1, seq items, o => lookInOrder (look dialect n) items o
  | n + 1, choice items, o => lookInTurn (look dialect n) o items
  | n + 1, star _ body, o => lookRounds (look dialect n body) (o.length + 1) o
  | n + 1, plus _ body, o =>
      (look dialect n body o).andThen (lookRounds (look dialect n body) (o.length + 1))
  | n + 1, opt body, o => (look dialect n body o).orElse fun _ => .takes o
  | n + 1, lookahead negated body, o => (look dialect n body o).looked negated o
  | n + 1, must body, o => (look dialect n body o).committed
  | n + 1, rule name, o =>
      match dialect.rules.find? fun r => r.name == name with
      | some r => look dialect n r.body o
      | none => .unclear
  | n + 1, ref none name, .name :: left =>
      if name = "name" then .takes left
      else if keywords.any (fun word => name == keyName word) then .fails
      else look dialect n (rule name) (.name :: left)
  | n + 1, ref none name, o => look dialect n (rule name) o
  | _ + 1, _, _ => .unclear

end Pattern

/-! ## Looking is right -/

variable {dialect : Dialect} {g : Grammar} {p : Pattern} {ts : List Token} {s rest : List Char}

namespace Terminal

/-- What a text makes of an outline is so on each text of that outline. -/
def LookedText (cs : List Char) (ts : List Token) (rest : List Char) : Sight → Prop
  | .takes left => ∃ later, later <:+ ts ∧ Token.outline later = left ∧
      Token.text ts rest = cs ++ Token.text later rest
  | .fails => ¬cs <+: Token.text ts rest
  | .breaks => False
  | .unclear => True

theorem looked_lookText (cs : List Char) (h : Token.Fit ts rest) :
    LookedText cs ts rest (lookText cs (Token.outline ts)) := by
  induction cs generalizing ts with
  | nil => exact ⟨ts, List.suffix_rfl, rfl, rfl⟩
  | cons c cs ih =>
      cases ts with
      | nil => trivial
      | cons t ts =>
          cases t with
          | char d =>
              change LookedText _ _ _ (if c = d then lookText cs (Token.outline ts) else .fails)
              split
              next heq =>
                subst heq
                have hothers := @ih ts h
                generalize lookText cs (Token.outline ts) = x at hothers ⊢
                cases x with
                | takes left =>
                    obtain ⟨later, hlater, hleft, htext⟩ := hothers
                    exact ⟨later, hlater.trans (List.suffix_cons _ _), hleft,
                      congrArg (c :: ·) htext⟩
                | fails => exact fun hprefix => hothers (List.cons_prefix_cons.mp hprefix).2
                | breaks => exact hothers
                | unclear => trivial
              next hne => exact fun hprefix => hne (List.cons_prefix_cons.mp hprefix).1
          | name n =>
              obtain ⟨d, t, hchars, hfirst⟩ := n.exists_eq_cons
              change LookedText _ _ _ (if isIdentifierFirst c then .unclear else .fails)
              split
              next => trivial
              next hnone =>
                intro hprefix
                rw [Token.text, hchars] at hprefix
                rw [(List.cons_prefix_cons.mp hprefix).1] at hnone
                exact hnone hfirst
          | finish => exact fun hprefix => by simpa [Token.text] using hprefix.length_le

/-- A text in one case answers as it is seen. -/
theorem lookText_holds (cs : List Char) (h : Token.Fit ts rest) :
    (lookText cs (Token.outline ts)).Holds g (.terminal (.literal cs false)) ts rest := by
  have hlooked := looked_lookText cs h
  generalize lookText cs (Token.outline ts) = x at hlooked ⊢
  cases x with
  | takes left =>
      obtain ⟨later, hlater, hleft, htext⟩ := hlooked
      refine ⟨[.chars cs], later, hlater, hleft, ?_⟩
      rw [htext]
      exact .of_answer (answer_literal cs _)
  | fails => exact failed_literal_iff.mpr hlooked
  | breaks => exact hlooked.elim
  | unclear => trivial

/-- Only a zero has the lower-case form of one in front. -/
theorem failed_hexMark (hs : ∀ c ∈ s.head?, c.toNat < 0x80 ∧ c.toLower ≠ '0') :
    Derives g (.terminal (.literal ['0', 'x'] true)) s .failed := by
  have hlower : Text.lower (s.take 2) ≠ Text.lower ['0', 'x'] := by
    cases s with
    | nil => decide
    | cons c s =>
        obtain ⟨hsmall, hzero⟩ := hs c rfl
        rw [show Text.lower ['0', 'x'] = ['0', 'x'] by decide]
        simp only [List.take_succ_cons, Text.lower, Text.CaseMap.lowerAfter, hsmall, if_true]
        intro heq
        exact hzero (List.cons.inj heq).1
  apply Derives.of_answer
  simp [answer, scan, hlower]

/-- The first character of a name is no zero. -/
theorem toLower_ne_zero {c : Char} (hc : isIdentifierFirst c = true) :
    c.toNat < 0x80 ∧ c.toLower ≠ '0' := by
  have hlisted : nameCharacters.toList.all (fun d => !isIdentifierFirst d ||
      (d.toNat < 0x80 && d.toLower != '0')) = true := by decide
  have hmem : c ∈ nameCharacters.toList := by
    rw [← isIdentifierPart_iff, isIdentifierPart, hc, Bool.true_or]
  simpa [hc] using List.all_eq_true.mp hlisted c hmem

theorem failed_longBracket_of_head (hs : StartsOutside ['['] s) :
    Derives g (.terminal .longBracket) s .failed := by
  refine failed_longBracket_iff.mpr fun level hprefix => ?_
  obtain ⟨t, rfl⟩ := hprefix
  rw [openingBracket_append] at hs
  exact absurd hs (by simp)

/-- A bracket only opens a long string before another one or a sign. -/
theorem failed_longBracket_of_next (hs : StartsOutside ['[', '='] s) :
    Derives g (.terminal .longBracket) ('[' :: s) .failed := by
  refine failed_longBracket_iff.mpr fun level hprefix => ?_
  obtain ⟨t, ht⟩ := hprefix
  rw [openingBracket_append] at ht
  obtain ⟨-, rfl⟩ := List.cons.inj ht
  cases level with
  | zero => exact absurd hs (by simp)
  | succ level =>
      rw [List.replicate_succ] at hs
      exact absurd hs (by simp)

theorem failed_identifier_of_head (hs : ∀ c ∈ s.head?, isIdentifierFirst c = false) :
    Derives g (.terminal .identifier) s .failed := by
  apply Derives.of_answer
  cases s with
  | nil => rfl
  | cons c s => simp [answer, scan, hs c rfl]

/-- What no name begins with does not stand where one does. -/
theorem startsOutside_name {chars : List Char} (hchars : chars.all (!isIdentifierFirst ·) = true)
    (n : Identifier) (s : List Char) : StartsOutside chars (n.chars ++ s) := by
  obtain ⟨c, t, hn, hfirst⟩ := n.exists_eq_cons
  rw [hn, List.cons_append, startsOutside_cons]
  intro hmem
  have hnone := List.all_eq_true.mp hchars c hmem
  rw [hfirst] at hnone
  cases hnone

/-- A bracket that goes on as no long bracket does is none. -/
theorem lookLongBracket_holds (d : Char) (ts : List Token) :
    (look (Token.outline (.char d :: ts)) .longBracket).Holds g (.terminal .longBracket)
      (.char d :: ts) rest := by
  by_cases hd : d = '['
  · subst hd
    cases ts with
    | nil => trivial
    | cons token ts =>
        cases token with
        | char e =>
            change Sight.Holds _ _ _ _ (if e = '[' ∨ e = '=' then .unclear else .fails)
            split
            next => trivial
            next he => exact failed_longBracket_of_next (startsOutside_cons.mpr (by simpa using he))
        | name n => exact failed_longBracket_of_next (startsOutside_name (by decide) n _)
        | finish => exact failed_longBracket_of_next startsOutside_nil
  · have hfails : look (Token.outline (.char d :: ts)) .longBracket = .fails := by
      simp only [look, Token.outline, List.map_cons, Token.mark]
      split <;> simp_all
    rw [hfails]
    exact failed_longBracket_of_head (startsOutside_cons.mpr (by simpa using hd))

/-- Text in either case is seen where it is that of the mark of a hexadecimal number. -/
theorem lookAnyCase_holds (cs : List Char) (ts : List Token) :
    (look (Token.outline ts) (.literal cs true)).Holds g (.terminal (.literal cs true)) ts
      rest := by
  dsimp only [look]
  split
  next hcs =>
    subst hcs
    cases ts with
    | nil => trivial
    | cons token ts =>
        cases token with
        | char d =>
            change Sight.Holds _ _ _ _ (if d.toNat < 0x80 ∧ d.toLower ≠ '0' then _ else _)
            split
            next hd => exact failed_hexMark fun c hc => Option.some.inj hc ▸ hd
            next => trivial
        | name n =>
            obtain ⟨c, t, hchars, hfirst⟩ := n.exists_eq_cons
            refine failed_hexMark fun d hd => ?_
            rw [Token.text, hchars] at hd
            exact Option.some.inj hd ▸ toLower_ne_zero hfirst
        | finish => exact failed_hexMark (by rintro _ ⟨⟩)
  next => trivial

/-- One of several characters is seen, and so is that a name begins with none of them. -/
theorem lookOneOf_holds (chars : List Char) (ts : List Token) :
    (look (Token.outline ts) (.oneOf chars false)).Holds g (.terminal (.oneOf chars false)) ts
      rest := by
  cases ts with
  | nil => trivial
  | cons token ts =>
      cases token with
      | char d =>
          change Sight.Holds _ _ _ _ (if chars.contains d then _ else _)
          split
          next hd =>
            exact ⟨_, ts, List.suffix_cons _ _, rfl, .of_answer (answer_oneOf (by simpa using hd))⟩
          next hd => exact failed_oneOf_iff.mpr (startsOutside_cons.mpr (by simpa using hd))
      | name n =>
          change Sight.Holds _ _ _ _ (if chars.all (!isIdentifierFirst ·) then _ else _)
          split
          next hnone => exact failed_oneOf_iff.mpr (startsOutside_name hnone n _)
          next => trivial
      | finish => exact failed_oneOf_iff.mpr startsOutside_nil

/-- A name is seen as one, and another character as none. -/
theorem lookIdentifier_holds (h : Token.Fit ts rest) :
    (look (Token.outline ts) .identifier).Holds g (.terminal .identifier) ts rest := by
  cases ts with
  | nil => trivial
  | cons token ts =>
      cases token with
      | char d =>
          change Sight.Holds _ _ _ _ (if isIdentifierFirst d then _ else _)
          split
          next => trivial
          next hd =>
            exact failed_identifier_of_head fun c hc =>
              Option.some.inj hc ▸ Bool.not_eq_true _ ▸ hd
      | name n => exact ⟨_, ts, List.suffix_cons _ _, rfl, .of_answer (n.answer_identifier h.1)⟩
      | finish => exact failed_identifier_of_head (by rintro _ ⟨⟩)

/-- The end of a text is seen only at its end. -/
theorem lookEndOfInput_holds (ts : List Token) :
    (look (Token.outline ts) .endOfInput).Holds g (.terminal .endOfInput) ts rest := by
  cases ts with
  | nil => trivial
  | cons token ts =>
      cases token with
      | char d => exact Derives.of_answer (by simp [answer, scan, Token.text])
      | name n =>
          obtain ⟨c, t, hchars, -⟩ := n.exists_eq_cons
          exact Derives.of_answer (by simp [answer, scan, Token.text, hchars])
      | finish => exact ⟨[], .finish :: ts, List.suffix_rfl, rfl, .of_answer rfl⟩

/-- Terminals answer as they are seen. -/
theorem look_holds (t : Terminal) (h : Token.Fit ts rest) :
    (t.look (Token.outline ts)).Holds g (.terminal t) ts rest := by
  cases t with
  | literal cs anyCase =>
      cases anyCase with
      | false => exact lookText_holds cs h
      | true => exact lookAnyCase_holds cs ts
  | oneOf chars negated =>
      cases negated with
      | true => trivial
      | false => exact lookOneOf_holds chars ts
  | identifier => exact lookIdentifier_holds h
  | endOfInput => exact lookEndOfInput_holds ts
  | endOfLine orEnd => trivial
  | longBracket =>
      cases ts with
      | nil => trivial
      | cons token ts =>
          cases token with
          | name n => exact failed_longBracket_of_head (startsOutside_name (by decide) n _)
          | finish => exact failed_longBracket_of_head startsOutside_nil
          | char d => exact lookLongBracket_holds d ts

end Terminal

namespace Sight.Holds

variable {x : Sight} {items : List Pattern} {q : Pattern} {later : List Token}

/-- What is seen of a part of a pattern, further on, is seen of the pattern if it answers as that
part does. -/
theorem transfer (h : x.Holds g q later rest) (hlater : later <:+ ts)
    (hmatched : ∀ parts u, Derives g q (Token.text later rest) (.matched parts u) →
      ∃ more, Derives g p (Token.text ts rest) (.matched more u))
    (hfailed : Derives g q (Token.text later rest) .failed →
      Derives g p (Token.text ts rest) .failed)
    (hbroken : Derives g q (Token.text later rest) .broken →
      Derives g p (Token.text ts rest) .broken) : x.Holds g p ts rest := by
  cases x with
  | takes left =>
      obtain ⟨parts, last, hlast, hleft, hmatch⟩ := h
      obtain ⟨more, hmore⟩ := hmatched parts _ hmatch
      exact ⟨more, last, hlast.trans hlater, hleft, hmore⟩
  | fails => exact hfailed h
  | breaks => exact hbroken h
  | unclear => trivial

theorem andThen {others : Outline → Sight} (hfirst : x.Holds g p ts rest)
    (hothers : ∀ later, later <:+ ts →
      (others (Token.outline later)).Holds g (.seq items) later rest) :
    (x.andThen others).Holds g (.seq (p :: items)) ts rest := by
  cases x with
  | takes left =>
      obtain ⟨parts, later, hlater, rfl, hmatch⟩ := hfirst
      exact (hothers later hlater).transfer hlater (fun _ _ h => ⟨_, .seqCons hmatch h⟩)
        (.seqCons hmatch) (.seqCons hmatch)
  | fails => exact .seqStop hfirst id
  | breaks => exact .seqStop hfirst id
  | unclear => trivial

theorem orElse {others : Unit → Sight} (hfirst : x.Holds g p ts rest)
    (hothers : (others ()).Holds g (.choice items) ts rest) :
    (x.orElse others).Holds g (.choice (p :: items)) ts rest := by
  cases x with
  | takes left =>
      obtain ⟨parts, later, hlater, hleft, hmatch⟩ := hfirst
      exact ⟨parts, later, hlater, hleft, .choiceHere hmatch (by simp)⟩
  | fails =>
      exact hothers.transfer List.suffix_rfl (fun _ _ h => ⟨_, .choiceNext hfirst h⟩)
        (.choiceNext hfirst) (.choiceNext hfirst)
  | breaks => exact .choiceHere hfirst (by simp)
  | unclear => trivial

theorem opt (h : x.Holds g p ts rest) :
    (x.orElse fun _ => .takes (Token.outline ts)).Holds g (.opt p) ts rest := by
  cases x with
  | takes left =>
      obtain ⟨parts, later, hlater, hleft, hmatch⟩ := h
      exact ⟨parts, later, hlater, hleft, .opt hmatch⟩
  | fails => exact ⟨[], ts, List.suffix_rfl, rfl, .opt h⟩
  | breaks => exact .opt h
  | unclear => trivial

theorem lookahead (h : x.Holds g p ts rest) (negated : Bool) :
    (x.looked negated (Token.outline ts)).Holds g (.lookahead negated p) ts rest := by
  cases x with
  | takes left =>
      obtain ⟨parts, later, -, -, hmatch⟩ := h
      cases negated with
      | true => exact (Derives.lookahead hmatch : Derives g (.lookahead true p) _ _)
      | false =>
          have hahead : Derives g (.lookahead false p) _ _ := .lookahead hmatch
          exact ⟨[], ts, List.suffix_rfl, rfl, hahead⟩
  | fails =>
      cases negated with
      | true =>
          have hahead : Derives g (.lookahead true p) _ _ := .lookahead h
          exact ⟨[], ts, List.suffix_rfl, rfl, hahead⟩
      | false => exact (Derives.lookahead h : Derives g (.lookahead false p) _ _)
  | breaks => exact .lookahead h
  | unclear => trivial

theorem must (h : x.Holds g p ts rest) : x.committed.Holds g (.must p) ts rest := by
  cases x with
  | takes left =>
      obtain ⟨parts, later, hlater, hleft, hmatch⟩ := h
      exact ⟨parts, later, hlater, hleft, .must hmatch⟩
  | fails => exact .must h
  | breaks => exact .must h
  | unclear => trivial

end Sight.Holds

namespace Pattern

variable {step : Pattern → Outline → Sight} {body : Outline → Sight}

theorem lookInOrder_holds (hstep : ∀ item ts, Token.Fit ts rest →
      (step item (Token.outline ts)).Holds g item ts rest)
    (items : List Pattern) (h : Token.Fit ts rest) :
    (lookInOrder step items (Token.outline ts)).Holds g (.seq items) ts rest := by
  induction items generalizing ts with
  | nil => exact ⟨[], ts, List.suffix_rfl, rfl, .seqNil _⟩
  | cons item items ih =>
      exact (hstep item ts h).andThen fun later hlater => ih (h.of_suffix hlater)

theorem lookInTurn_holds {o : Outline} (hstep : ∀ item, (step item o).Holds g item ts rest)
    (items : List Pattern) : (lookInTurn step o items).Holds g (.choice items) ts rest := by
  induction items with
  | nil => exact .choiceNil _
  | cons item items ih => exact (hstep item).orElse ih

theorem lookRounds_holds {site : Site}
    (hbody : ∀ ts, Token.Fit ts rest → (body (Token.outline ts)).Holds g p ts rest)
    (rounds : Nat) (h : Token.Fit ts rest) :
    (lookRounds body rounds (Token.outline ts)).Holds g (.star site p) ts rest := by
  induction rounds generalizing ts with
  | zero => trivial
  | succ rounds ih =>
      have hround := hbody ts h
      rw [lookRounds]
      generalize body (Token.outline ts) = x at hround
      cases x with
      | takes left =>
          obtain ⟨parts, later, hlater, rfl, hmatch⟩ := hround
          exact (ih (h.of_suffix hlater)).transfer hlater (fun _ _ h => ⟨_, .starMore hmatch h⟩)
            (.starMore hmatch) (.starMore hmatch)
      | fails => exact ⟨[], ts, List.suffix_rfl, rfl, .starStop hround id⟩
      | breaks => exact .starStop hround id
      | unclear => trivial

theorem lookPlus_holds {site : Site}
    (hbody : ∀ ts, Token.Fit ts rest → (body (Token.outline ts)).Holds g p ts rest)
    (rounds : Nat) (h : Token.Fit ts rest) :
    ((body (Token.outline ts)).andThen (lookRounds body rounds)).Holds g (.plus site p) ts
      rest := by
  have hround := hbody ts h
  generalize body (Token.outline ts) = x at hround
  cases x with
  | takes left =>
      obtain ⟨parts, later, hlater, rfl, hmatch⟩ := hround
      have hstar :
          (lookRounds body rounds (Token.outline later)).Holds g (.star site p) later rest :=
        lookRounds_holds hbody rounds (h.of_suffix hlater)
      exact hstar.transfer hlater (fun _ _ h => ⟨_, .plusMore hmatch h⟩) (.plusMore hmatch)
        (.plusMore hmatch)
  | fails => exact .plusStop hround id
  | breaks => exact .plusStop hround id
  | unclear => trivial

/-- A reference answers as the rule that it stands for. -/
theorem ref_of_rule {name : String} {a : Answer} (h : Derives dialect.grammar (.rule name) s a) :
    Derives dialect.grammar (.call name) s a := by
  refine .ref ?_ h
  cases h with
  | rule found _ =>
      rw [isLinked_grammar, Grammar.defines, found]
      rfl

/-- Patterns answer on a text as they are seen on its outline. -/
theorem look_holds (dialect : Dialect) (n : Nat) (p : Pattern) (h : Token.Fit ts rest) :
    (look dialect n p (Token.outline ts)).Holds dialect.grammar p ts rest := by
  induction n generalizing p ts with
  | zero => trivial
  | succ n ih =>
      cases p with
      | terminal t => exact t.look_holds h
      | seq items => exact lookInOrder_holds (fun item ts h => ih item h) items h
      | choice items => exact lookInTurn_holds (fun item => ih item h) items
      | star site body => exact lookRounds_holds (fun ts h => ih body h) _ h
      | plus site body => exact lookPlus_holds (fun ts h => ih body h) _ h
      | opt body => exact (ih body h).opt
      | lookahead negated body => exact (ih body h).lookahead negated
      | must body => exact (ih body h).must
      | rule name =>
          rw [look]
          split
          next rule hfound =>
            have hrule : dialect.grammar.rule? name = some rule := by rw [rule?_eq]; exact hfound
            exact (ih rule.body h).transfer List.suffix_rfl (fun _ _ h => ⟨_, .rule hrule h⟩)
              (.rule hrule) (.rule hrule)
          next => trivial
      | ref site name =>
          cases site with
          | some site => trivial
          | none =>
              have hrule := (ih (rule name) h).transfer (p := .call name) List.suffix_rfl
                (fun parts _ h => ⟨parts, ref_of_rule h⟩) ref_of_rule ref_of_rule
              cases ts with
              | nil => exact hrule
              | cons token ts =>
                  cases token with
                  | char d => exact hrule
                  | finish => exact hrule
                  | name m =>
                      change Sight.Holds _ _ _ _ (if name = "name" then _ else if
                        keywords.any (fun word => name == keyName word) then _ else _)
                      split
                      next hname =>
                        subst hname
                        obtain ⟨parts, hmatch⟩ := m.takes_name dialect h.1
                        exact ⟨parts, ts, List.suffix_cons _ _, rfl, hmatch⟩
                      next =>
                        split
                        next hkey =>
                          obtain ⟨word, hword, hname⟩ := List.any_eq_true.mp hkey
                          obtain rfl := beq_iff_eq.mp hname
                          exact m.failed_key h.1 hword
                        next => exact hrule
      | _ => trivial

end Pattern

/-- What a pattern takes of a text is read off its outline. -/
theorem takes_of_look {n : Nat} (before later : List Token) (h : Token.Fit (before ++ later) rest)
    (hlook : Pattern.look dialect n p (Token.outline (before ++ later)) =
      .takes (Token.outline later)) :
    Takes dialect.grammar p (Token.text (before ++ later) rest) (Token.text later rest) := by
  have hholds := Pattern.look_holds dialect n p h
  rw [hlook] at hholds
  obtain ⟨parts, last, hlast, hleft, hmatch⟩ := hholds
  have hlength : last.length = later.length := by
    simpa [Token.outline] using congrArg List.length hleft
  have heq : last = later :=
    (List.suffix_of_suffix_length_le hlast (List.suffix_append before later)
      (Nat.le_of_eq hlength)).eq_of_length hlength
  rw [heq] at hmatch
  exact ⟨parts, hmatch⟩

theorem failed_of_look {n : Nat} (h : Token.Fit ts rest)
    (hlook : Pattern.look dialect n p (Token.outline ts) = .fails) :
    Derives dialect.grammar p (Token.text ts rest) .failed := by
  have hholds := Pattern.look_holds dialect n p h
  rwa [hlook] at hholds

end CartLua
