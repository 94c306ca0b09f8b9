import CartLua.Proofs.Derivation.TreeShapes

/-!
# What follows a match

Some patterns match alike in both dialects only if the text goes on in a certain way: a
comparison ends before anything but `!`, and a call that may end a statement before
anything but another tail.  Here is how this is known.  What follows a pattern in a
sequence begins with a character of its own, perhaps after padding, so a match of the rest
of the sequence says how the text goes on.
-/

namespace CartLua

open Dialect

namespace Match

variable {g : Grammar} {s rest : List Char} {parts : List Tree}

/-- A name begins with a character for it. -/
theorem of_identifier (h : Match g (.terminal .identifier) s parts rest) :
    ∃ c t, s = c :: t ∧ Terminal.isIdentifierFirst c = true := by
  cases h with
  | take hscan =>
      cases s with
      | nil => rw [Terminal.scan] at hscan; cases hscan
      | cons c s =>
          rw [Terminal.scan] at hscan
          simp only [List.getElem?_toArray, List.getElem?_cons_zero] at hscan
          split at hscan
          · exact ⟨c, s, rfl, ‹_›⟩
          · cases hscan
  | stay hscan => cases Terminal.nullable_of_stay hscan

/-- A long bracket begins with a bracket. -/
theorem of_longBracket (h : Match g (.terminal .longBracket) s parts rest) :
    ∃ t, s = '[' :: t := by
  cases h with
  | take hscan =>
      rw [Terminal.scan] at hscan
      split at hscan
      · rename_i hstarts
        obtain ⟨t, ht⟩ := (Text.startsAt_iff.mp hstarts).2
        exact ⟨t, ht.symm⟩
      · cases hscan
  | stay hscan => cases Terminal.nullable_of_stay hscan

end Match

/-- The characters with which a text may go on, and rules that go on with one of them. -/
structure Cue where
  allowed : Char → Bool
  /-- Whether names may come next. -/
  names : Bool
  names_allowed : names = true → ∀ c, Terminal.isIdentifierFirst c = true → allowed c = true
  /-- Rules that only match before such a character. -/
  firm : List String

namespace Cue

/-- Whether a token may begin with a character.  Padding does not begin with it. -/
def starts (cue : Cue) (c : Char) : Bool :=
  cue.allowed c && !spaces.toList.contains c && c != '-'

/-- Whether a terminal only matches before a character with which the text may go on, or
at its end. -/
def leadsTerminal (cue : Cue) : Terminal → Bool
  | .literal (c :: _) false => cue.starts c
  | .oneOf chars false => chars.all cue.starts
  | .identifier => cue.names
  | .endOfInput => true
  | .longBracket => cue.starts '['
  | _ => false

end Cue

namespace Pattern

mutual

/-- Whether a text that a pattern matches goes on as the cue says.  With `known`, what is
left after the match goes on so. -/
def leads (cue : Cue) (known : Bool) : Pattern → Bool
  | terminal t => cue.leadsTerminal t
  | seq items => leadsInOrder cue known items
  | choice alternatives => allLead cue known alternatives
  | star _ body => known && body.leads cue true
  | plus _ body => body.leads cue known
  | opt body => known && body.leads cue true
  | atMost .. => false
  | lookahead negated body => known || (!negated && body.leads cue false)
  | skipTo _ => false
  | repeatUntil _ stop body => stop.leads cue known && body.leads cue true
  | must body => body.leads cue known
  | rule name => cue.firm.contains name || (known && ["sep", "seps"].contains name)
  | ref _ name => cue.firm.contains name || (known && ["sep", "seps"].contains name)

/-- Whether a text that patterns match in order goes on as the cue says. -/
def leadsInOrder (cue : Cue) (known : Bool) : List Pattern → Bool
  | [] => known
  | item :: items => item.leads cue false || (item.leads cue true && leadsInOrder cue known items)

/-- Whether a text that one of several patterns matches goes on as the cue says. -/
def allLead (cue : Cue) (known : Bool) : List Pattern → Bool
  | [] => true
  | item :: items => item.leads cue known && allLead cue known items

end

end Pattern

/-- Padding, as often as there is some. -/
def padding : Pattern := .star none (.call "sep")

/-- Whether, once its padding is passed, a text has an allowed character or ends. -/
def Cue.Next (cue : Cue) (g : Grammar) (s : List Char) : Prop :=
  ∀ parts rest, Derives g padding s (.matched parts rest) → ∀ c ∈ rest.head?, cue.allowed c = true

/-- Whether the firm rules of a dialect are what they are said to be. -/
def Cue.fits (cue : Cue) (dialect : Dialect) : Bool :=
  dialect.rules.all fun rule => !cue.firm.contains rule.name || rule.body.leads cue false

namespace Dialect

variable {dialect : Dialect} {cue : Cue} {s rest : List Char} {parts : List Tree}

theorem mem_sep : sep ∈ dialect.rules := by simp [rules, lexicalRules]

theorem mem_seps : seps ∈ dialect.rules := by simp [rules, lexicalRules]

theorem mem_functionCallTail : functionCallTail ∈ dialect.rules := by simp [rules, chainRules]

theorem mem_variableTail : variableTail ∈ dialect.rules := by simp [rules, chainRules]

theorem mem_callContinuation : callContinuation ∈ dialect.rules := by
  simp [rules, chainStatementRules]

theorem mem_variableContinuation (dialect : Dialect) :
    variableContinuation dialect ∈ dialect.rules := by
  simp [rules, chainStatementRules]

theorem mem_bracketContinuation : bracketContinuation ∈ dialect.rules := by
  simp [rules, chainStatementRules]

/-- Padding does not begin with a character that is neither a blank nor a dash. -/
theorem failed_sep {c : Char} (hspace : c ∉ spaces.toList) (hdash : c ≠ '-') :
    Derives dialect.grammar (.call "sep") (c :: s) .failed := by
  have hdashes : Derives dialect.grammar (.text "--") (c :: s) .failed :=
    Derives.failed_literal (Ne.symm hdash)
  have hmem : comment ∈ dialect.rules := by simp [rules, lexicalRules]
  have hcomment : Derives dialect.grammar (.call "comment") (c :: s) .failed :=
    failed_call hmem (.seqStop hdashes id)
  have hblank : Derives dialect.grammar (.one spaces) (c :: s) .failed :=
    failed_oneOf_iff.mpr (startsOutside_cons.mpr hspace)
  apply failed_call mem_sep
  exact .choiceNext hblank (.choiceNext hcomment (.choiceNil (c :: s)))

/-- A text that begins with an allowed character goes on with it. -/
theorem next_of_starts {c : Char} (hc : cue.starts c = true) :
    cue.Next dialect.grammar (c :: s) := by
  simp only [Cue.starts, Bool.and_eq_true, Bool.not_eq_true', bne_iff_ne] at hc
  intro parts rest h d hd
  generalize ha : Answer.matched parts rest = a at h
  cases h with
  | starMore round _ =>
      have hfailed : Derives dialect.grammar (.call "sep") (c :: s) .failed :=
        failed_sep (by simpa using hc.1.2) hc.2
      nomatch hfailed.deterministic round
  | @starStop _ _ _ a _ stops =>
      cases a <;> cases ha
      · exact absurd trivial stops
      · cases hd
        exact hc.1.1

theorem next_nil : cue.Next dialect.grammar [] := by
  intro parts rest h c hc
  have htext := h.toMatch.text_eq
  rw [(List.append_eq_nil_iff.mp htext.symm).2] at hc
  cases hc

/-- What a text goes on with is what it begins with, if that is no padding. -/
theorem allowed_of_next {c : Char} (h : cue.Next dialect.grammar (c :: s))
    (hspace : c ∉ spaces.toList) (hdash : c ≠ '-') : cue.allowed c = true :=
  h [] (c :: s) (.starStop (failed_sep hspace hdash) id) c rfl

/-- Before more padding a text goes on as after it. -/
theorem next_of_sep (h : Derives dialect.grammar (.call "sep") s (.matched parts rest))
    (hnext : cue.Next dialect.grammar rest) : cue.Next dialect.grammar s := by
  intro parts' rest' hpadding
  generalize ha : Answer.matched parts' rest' = a at hpadding
  cases hpadding with
  | @starMore _ _ _ _ _ a round others =>
      cases round.deterministic h
      cases a <;> cases ha
      exact hnext _ _ others
  | starStop round stops =>
      cases round.deterministic h
      exact absurd trivial stops

/-- An identifier begins no padding. -/
theorem starts_of_isIdentifierFirst (hnames : cue.names = true) {c : Char}
    (hc : Terminal.isIdentifierFirst c = true) : cue.starts c = true := by
  have hall : (spaces.toList ++ ['-']).all (fun d => !Terminal.isIdentifierFirst d) = true := by
    decide
  have hnot : c ∉ spaces.toList ++ ['-'] := by
    intro hmem
    have hfirst := List.all_eq_true.mp hall c hmem
    rw [hc] at hfirst
    cases hfirst
  rw [List.mem_append, not_or] at hnot
  have hallowed := cue.names_allowed hnames c hc
  simpa [Cue.starts, hallowed] using hnot

/-- What a terminal that leads on matches begins with an allowed character. -/
theorem next_of_terminal {t : Terminal} (ht : cue.leadsTerminal t = true)
    (h : Derives dialect.grammar (.terminal t) s (.matched parts rest)) :
    cue.Next dialect.grammar s := by
  have hmatch := h.toMatch
  cases t with
  | literal cs anyCase =>
      cases anyCase with
      | true => cases cs <;> cases ht
      | false =>
          cases cs with
          | nil => cases ht
          | cons c cs =>
              obtain ⟨-, rfl⟩ := Match.of_literal hmatch
              exact next_of_starts ht
  | oneOf chars negated =>
      cases negated with
      | true => cases ht
      | false =>
          obtain ⟨c, hc, -, rfl⟩ := Match.of_oneOf hmatch
          exact next_of_starts (List.all_eq_true.mp ht c (by simpa using hc))
  | identifier =>
      obtain ⟨c, _, rfl, hfirst⟩ := hmatch.of_identifier
      exact next_of_starts (starts_of_isIdentifierFirst ht hfirst)
  | endOfInput =>
      obtain ⟨-, rfl, -⟩ := Match.of_endOfInput hmatch
      exact next_nil
  | endOfLine orEnd => cases ht
  | longBracket =>
      obtain ⟨_, rfl⟩ := hmatch.of_longBracket
      exact next_of_starts ht

/-- A firm rule goes on as its body, and a rule of padding as what follows it. -/
theorem next_of_rule (hcue : cue.fits dialect = true) {rule : Rule} (hrule : rule ∈ dialect.rules)
    {known : Bool} (hp : (Pattern.rule rule.name).leads cue known = true)
    (hinner : Derives dialect.grammar rule.body s (.matched parts rest))
    (hknown : known = true → cue.Next dialect.grammar rest)
    (hbody : ∀ {known}, rule.body.leads cue known = true →
      (known = true → cue.Next dialect.grammar rest) → cue.Next dialect.grammar s) :
    cue.Next dialect.grammar s := by
  simp only [Pattern.leads, Bool.or_eq_true, Bool.and_eq_true, List.contains_iff_mem,
    List.mem_cons, List.not_mem_nil, or_false] at hp
  rcases hp with hfirm | ⟨hafter, hname | hname⟩
  · have hfits := List.all_eq_true.mp hcue rule hrule
    have hleads : rule.body.leads cue false = true := by simpa [hfirm] using hfits
    exact hbody hleads nofun
  · obtain rfl := eq_of_name_eq hrule mem_sep hname
    exact next_of_sep (derives_call hrule hinner)
      (hknown hafter)
  · obtain rfl := eq_of_name_eq hrule mem_seps hname
    have hleads : seps.body.leads cue true = true := by
      simp [seps, Pattern.many, Pattern.leads, Pattern.call]
    exact hbody hleads fun _ => hknown hafter

/-- What a pattern that leads on matches goes on with an allowed character. -/
theorem next_of_leads (hcue : cue.fits dialect = true) {p : Pattern} {known : Bool}
    (hp : p.leads cue known = true)
    (h : Derives dialect.grammar p s (.matched parts rest))
    (hknown : known = true → cue.Next dialect.grammar rest) : cue.Next dialect.grammar s := by
  induction h using Derives.matched_induction generalizing known with
  | terminal h => exact next_of_terminal hp h
  | seqNil s => exact hknown hp
  | seqCons _ _ ihfirst ihothers =>
      simp only [Pattern.leads, Pattern.leadsInOrder, Bool.or_eq_true, Bool.and_eq_true] at hp
      rcases hp with hitem | ⟨hitem, hitems⟩
      · exact ihfirst hitem nofun
      · exact ihfirst hitem fun _ => ihothers hitems hknown
  | choiceHere _ ih => exact ih (Bool.and_eq_true _ _ ▸ hp).1 hknown
  | choiceNext _ _ ih => exact ih (Bool.and_eq_true _ _ ▸ hp).2 hknown
  | starMore _ _ ihround ihothers =>
      exact ihround (Bool.and_eq_true _ _ ▸ hp).2 fun _ => ihothers hp hknown
  | starStop _ => exact hknown (Bool.and_eq_true _ _ ▸ hp).1
  | @plusMore site body _ _ _ _ _ _ _ ihround ihothers =>
      cases known with
      | true =>
          have hstar : (Pattern.star site body).leads cue true = true := hp
          exact ihround hp fun _ => ihothers hstar hknown
      | false => exact ihround hp nofun
  | optHere _ ih =>
      obtain ⟨hafter, hbody⟩ := Bool.and_eq_true _ _ ▸ hp
      exact ih hbody fun _ => hknown hafter
  | optNot _ => exact hknown (Bool.and_eq_true _ _ ▸ hp).1
  | lookaheadHere _ ih =>
      simp only [Pattern.leads, Bool.not_false, Bool.true_and, Bool.or_eq_true] at hp
      exact hp.elim hknown fun hbody => ih hbody nofun
  | lookaheadNot _ => exact hknown (by simpa [Pattern.leads] using hp)
  | untilHere _ ih => exact ih (Bool.and_eq_true _ _ ▸ hp).1 hknown
  | untilMore _ _ _ ihround ihothers =>
      exact ihround (Bool.and_eq_true _ _ ▸ hp).2 fun _ => ihothers hp hknown
  | must _ ih => exact ih hp hknown
  | rule found inner ih =>
      have hrule := rules_grammar dialect ▸ Grammar.mem_of_rule? found
      obtain rfl := Grammar.name_of_rule? found
      exact next_of_rule hcue hrule hp inner hknown ih
  | ref _ _ ih => exact ih hp hknown
  | _ => cases hp

/-- A pattern may show how the text goes on, whatever follows it. -/
theorem next_at_once (hcue : cue.fits dialect = true) {p : Pattern} (hp : p.leads cue false = true)
    (h : Derives dialect.grammar p s (.matched parts rest)) : cue.Next dialect.grammar s :=
  next_of_leads hcue hp h nofun

/-- What goes on in a certain way after a pattern may do so before it. -/
theorem next_through (hcue : cue.fits dialect = true) {p : Pattern} (hp : p.leads cue true = true)
    (h : Derives dialect.grammar p s (.matched parts rest))
    (hnext : cue.Next dialect.grammar rest) :
    cue.Next dialect.grammar s :=
  next_of_leads hcue hp h fun _ => hnext

end Dialect

end CartLua
