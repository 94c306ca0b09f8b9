import CartLua.Proofs.Dialect.Carrying

/-!
# Passages between the dialects

A passage lists the rules that are carried from one dialect to the other: rules that are
the same in both and only use such rules, rules whose failures are carried, rules whose
matches are carried whatever follows, and rules whose matches are carried if the text goes
on as a cue says.  Whether a pattern is carried is then read off it, once it is known of
the rules that it uses.
-/

namespace CartLua

open Dialect

namespace Pattern

mutual

/-- Whether a pattern never fails, when some rules never do. -/
def neverFails (names : List String) : Pattern → Bool
  | terminal _ => false
  | seq items => allNeverFail names items
  | choice alternatives => anyNeverFails names alternatives
  | star .. => true
  | plus .. => false
  | opt _ => true
  | atMost .. => true
  | lookahead .. => false
  | skipTo _ => false
  | repeatUntil .. => false
  | must _ => true
  | rule name => names.contains name
  | ref _ name => names.contains name

/-- Whether none of several patterns ever fails. -/
def allNeverFail (names : List String) : List Pattern → Bool
  | [] => true
  | item :: items => item.neverFails names && allNeverFail names items

/-- Whether one of several patterns never fails. -/
def anyNeverFails (names : List String) : List Pattern → Bool
  | [] => false
  | item :: items => item.neverFails names || anyNeverFails names items

end

mutual

/-- Whether a pattern only uses some rules, also to look ahead. -/
def usesOnly (names : List String) : Pattern → Bool
  | terminal _ => true
  | seq items => allUseOnly names items
  | choice alternatives => allUseOnly names alternatives
  | star _ body => body.usesOnly names
  | plus _ body => body.usesOnly names
  | opt body => body.usesOnly names
  | atMost _ body => body.usesOnly names
  | lookahead _ body => body.usesOnly names
  | skipTo stop => stop.usesOnly names
  | repeatUntil _ stop body => stop.usesOnly names && body.usesOnly names
  | must body => body.usesOnly names
  | rule name => names.contains name
  | ref _ name => names.contains name

/-- Whether several patterns only use some rules. -/
def allUseOnly (names : List String) : List Pattern → Bool
  | [] => true
  | item :: items => item.usesOnly names && allUseOnly names items

end

end Pattern

/-- The rules that are carried from one dialect to another. -/
structure Passage where
  /-- How the text goes on after a rule that is passing. -/
  cue : Cue
  /-- Rules that never fail. -/
  unfailing : List String
  /-- Rules that are the same in both dialects, with all that they use. -/
  shared : List String
  /-- Rules whose failures are carried. -/
  refusing : List String
  /-- Rules whose matches are carried. -/
  sealed : List String
  /-- Rules whose matches are carried if the text goes on as the cue says. -/
  passing : List String

namespace Pattern

mutual

/-- Whether the failures of a pattern are carried. -/
def refuses (k : Passage) : Pattern → Bool
  | terminal _ => true
  | seq items => refusesInOrder k items
  | choice alternatives => allRefuse k alternatives
  | star .. => true
  | plus _ body => body.refuses k
  | opt _ => true
  | atMost .. => true
  | lookahead _ body => body.usesOnly k.shared
  | skipTo stop => stop.usesOnly k.shared
  | repeatUntil _ stop body => stop.usesOnly k.shared && body.usesOnly k.shared
  | must _ => true
  | rule name => k.shared.contains name
  | ref _ name => k.shared.contains name || k.refusing.contains name

/-- Whether the failures of patterns in order are carried.  What matched before a failure
must be shared. -/
def refusesInOrder (k : Passage) : List Pattern → Bool
  | [] => true
  | item :: items => item.refuses k &&
      (allNeverFail k.unfailing items || (item.usesOnly k.shared && refusesInOrder k items))

/-- Whether the failures of several patterns are carried. -/
def allRefuse (k : Passage) : List Pattern → Bool
  | [] => true
  | item :: items => item.refuses k && allRefuse k items

end

mutual

/-- Whether the matches of a pattern are carried.  With `known`, what is left after the
match goes on as the cue says. -/
def carries (k : Passage) (known : Bool) : Pattern → Bool
  | terminal _ => true
  | seq items => carriesInOrder k known items
  | choice alternatives => carriesInTurn k known alternatives
  | star _ body => body.refuses k &&
      (body.carries k false || (known && body.carries k true && body.leads k.cue true))
  | plus _ body => body.refuses k &&
      (body.carries k false || (known && body.carries k true && body.leads k.cue true))
  | opt body => body.refuses k && body.carries k known
  | atMost _ body => body.usesOnly k.shared
  | lookahead _ body => body.usesOnly k.shared
  | skipTo stop => stop.usesOnly k.shared
  | repeatUntil _ stop body => stop.refuses k && stop.carries k known &&
      (body.carries k false ||
        (body.carries k true && stop.leads k.cue known && body.leads k.cue true))
  | must body => body.carries k known
  | rule name => k.shared.contains name
  | ref _ name =>
      k.shared.contains name || k.sealed.contains name || (known && k.passing.contains name)

/-- Whether the matches of patterns in order are carried. -/
def carriesInOrder (k : Passage) (known : Bool) : List Pattern → Bool
  | [] => true
  | item :: items =>
      (item.carries k false || (item.carries k true && leadsInOrder k.cue known items)) &&
        carriesInOrder k known items

/-- Whether the matches of a choice are carried. -/
def carriesInTurn (k : Passage) (known : Bool) : List Pattern → Bool
  | [] => true
  | item :: items =>
      item.carries k known && (items.isEmpty || item.refuses k) && carriesInTurn k known items

end

end Pattern

namespace Passage

variable (k : Passage) (a b : Dialect)

/-- Whether the rules that a passage says to be shared are in both dialects, and what it
says of rules that never fail and of rules that show how the text goes on is so. -/
structure Suits : Prop where
  cue : k.cue.fits a = true
  unfailing : ∀ rule ∈ a.rules, k.unfailing.contains rule.name = true →
    rule.body.neverFails k.unfailing = true
  shared : ∀ rule ∈ a.rules, k.shared.contains rule.name = true →
    rule ∈ b.rules ∧ rule.body.usesOnly k.shared = true

/-- Whether the rules of a passage are carried within a depth. -/
structure Holds (depth : Nat) : Prop where
  refusing : ∀ n < depth, ∀ name, k.refusing.contains name = true →
    Refuses a b k.cue false n (.rule name)
  sealed : ∀ n < depth, ∀ name, k.sealed.contains name = true →
    Carries a b k.cue false n (.rule name)
  passing : ∀ n < depth, ∀ name, k.passing.contains name = true →
    Carries a b k.cue true n (.rule name)

variable {k a b}

/-- A pattern that never fails does not fail. -/
theorem Suits.not_failed (h : k.Suits a b) {p : Pattern} (hp : p.neverFails k.unfailing = true)
    {s : List Char} : ¬Derives a.grammar p s .failed := by
  intro hderives
  generalize hx : Answer.failed = x at hderives
  induction hderives with
  | terminal => cases hp
  | seqNil => cases hx
  | @seqCons _ _ _ _ _ x _ _ _ ihothers =>
      cases x <;> cases hx
      simp only [Pattern.neverFails, Pattern.allNeverFail, Bool.and_eq_true] at hp
      exact ihothers hp.2 rfl
  | seqStop _ _ ihfirst =>
      simp only [Pattern.neverFails, Pattern.allNeverFail, Bool.and_eq_true] at hp
      exact ihfirst hp.1 hx
  | choiceNil => cases hp
  | choiceHere _ taken _ => exact taken hx.symm
  | choiceNext _ _ ihfirst ihothers =>
      simp only [Pattern.neverFails, Pattern.anyNeverFails, Bool.or_eq_true] at hp
      rcases hp with hp | hp
      · exact ihfirst hp rfl
      · exact ihothers hp hx
  | @starMore _ _ _ _ _ x _ _ _ ihothers =>
      cases x <;> cases hx
      exact ihothers hp rfl
  | @starStop _ _ _ x _ _ _ => cases x <;> cases hx
  | plusMore => cases hp
  | plusStop => cases hp
  | @opt _ _ x _ _ => cases x <;> cases hx
  | atMostZero => cases hx
  | @atMostMore _ _ _ _ _ x _ _ _ _ ihothers =>
      cases x <;> cases hx
      exact ihothers rfl rfl
  | @atMostStop _ _ _ x _ _ _ _ => cases x <;> cases hx
  | lookahead => cases hp
  | skipHere => cases hp
  | skipPass => cases hp
  | skipEnd => cases hp
  | untilHere => cases hp
  | untilMore => cases hp
  | untilStop => cases hp
  | @must _ _ x _ _ => cases x <;> cases hx
  | @rule name rule _ x found _ ih =>
      cases x <;> cases hx
      obtain rfl := Grammar.name_of_rule? found
      exact ih (h.unfailing rule (rules_grammar a ▸ Grammar.mem_of_rule? found) hp) rfl
  | ref _ _ ih => exact ih hp hx

/-- What only uses shared rules is the same in both dialects. -/
theorem Suits.shares (h : k.Suits a b) {p : Pattern} (hp : p.usesOnly k.shared = true) (n : Nat) :
    Shares a b n p := by
  intro s x hderives
  induction hderives with
  | terminal t s => exact .terminal t s
  | seqNil s => exact .seqNil s
  | seqCons _ _ ihfirst ihothers =>
      simp only [Pattern.usesOnly, Pattern.allUseOnly, Bool.and_eq_true] at hp
      exact .seqCons (ihfirst hp.1) (ihothers hp.2)
  | seqStop _ stops ihfirst =>
      simp only [Pattern.usesOnly, Pattern.allUseOnly, Bool.and_eq_true] at hp
      exact .seqStop (ihfirst hp.1) stops
  | choiceNil s => exact .choiceNil s
  | choiceHere _ taken ihfirst =>
      simp only [Pattern.usesOnly, Pattern.allUseOnly, Bool.and_eq_true] at hp
      exact .choiceHere (ihfirst hp.1) taken
  | choiceNext _ _ ihfirst ihothers =>
      simp only [Pattern.usesOnly, Pattern.allUseOnly, Bool.and_eq_true] at hp
      exact .choiceNext (ihfirst hp.1) (ihothers hp.2)
  | starMore _ _ ihround ihothers => exact .starMore (ihround hp) (ihothers hp)
  | starStop _ stops ihround => exact .starStop (ihround hp) stops
  | plusMore _ _ ihround ihothers => exact .plusMore (ihround hp) (ihothers hp)
  | plusStop _ stops ihround => exact .plusStop (ihround hp) stops
  | opt _ ihinner => exact .opt (ihinner hp)
  | atMostZero s done => exact .atMostZero s done
  | atMostMore left _ _ ihround ihothers => exact .atMostMore left (ihround hp) (ihothers hp)
  | atMostStop left _ stops ihround => exact .atMostStop left (ihround hp) stops
  | lookahead _ ihinner => exact .lookahead (ihinner hp)
  | skipHere _ taken ihhere => exact .skipHere (ihhere hp) taken
  | skipPass _ _ ihhere ihothers => exact .skipPass (ihhere hp) (ihothers hp)
  | skipEnd _ ihhere => exact .skipEnd (ihhere hp)
  | untilHere _ taken ihhere =>
      simp only [Pattern.usesOnly, Bool.and_eq_true] at hp
      exact .untilHere (ihhere hp.1) taken
  | untilMore _ _ _ ihhere ihround ihothers =>
      have hboth := hp
      simp only [Pattern.usesOnly, Bool.and_eq_true] at hboth
      exact .untilMore (ihhere hboth.1) (ihround hboth.2) (ihothers hp)
  | untilStop _ _ stops ihhere ihround =>
      simp only [Pattern.usesOnly, Bool.and_eq_true] at hp
      exact .untilStop (ihhere hp.1) (ihround hp.2) stops
  | must _ ihinner => exact .must (ihinner hp)
  | @rule _ _ rule _ _ found _ ihinner =>
      obtain rfl := Grammar.name_of_rule? found
      obtain ⟨hmem, hbody⟩ :=
        h.shared rule (rules_grammar a ▸ Grammar.mem_of_rule? found) hp
      exact .rule (rule?_grammar hmem) (ihinner hbody)
  | ref linked _ ihinner =>
      have hrule := ihinner hp
      exact .ref (isLinked_of_rule linked hrule) hrule

variable {depth : Nat}

mutual

/-- The failures of a pattern are carried if the passage says so. -/
theorem Holds.refuses (hsuits : k.Suits a b) (hholds : k.Holds a b depth) :
    (p : Pattern) → (n : Nat) → n ≤ depth → p.refuses k = true → Refuses a b k.cue false n p
  | _, 0, _, _ => .zero
  | .terminal t, n + 1, _, _ => (hsuits.shares (p := .terminal t) rfl (n + 1)).refuses
  | .seq items, n + 1, hn, hp => hholds.refusesInOrder hsuits items n hn hp
  | .choice items, n + 1, hn, hp => hholds.allRefuse hsuits items n hn hp
  | .star .., _ + 1, _, _ => fun _ _ h => absurd h.erase (hsuits.not_failed rfl)
  | .plus _ body, n + 1, hn, hp => .plus (hholds.refuses hsuits body n (by omega) hp)
  | .opt _, _ + 1, _, _ => fun _ _ h => absurd h.erase (hsuits.not_failed rfl)
  | .atMost .., _ + 1, _, _ => fun _ _ h => absurd h.erase (hsuits.not_failed rfl)
  | .lookahead negated body, n + 1, _, hp =>
      (hsuits.shares (p := .lookahead negated body) hp (n + 1)).refuses
  | .skipTo stop, n + 1, _, hp => (hsuits.shares (p := .skipTo stop) hp (n + 1)).refuses
  | .repeatUntil site stop body, n + 1, _, hp =>
      (hsuits.shares (p := .repeatUntil site stop body) hp (n + 1)).refuses
  | .must _, _ + 1, _, _ => fun _ _ h => absurd h.erase (hsuits.not_failed rfl)
  | .rule name, n + 1, _, hp => (hsuits.shares (p := .rule name) hp (n + 1)).refuses
  | .ref site name, n + 1, hn, hp => by
      simp only [Pattern.refuses, Bool.or_eq_true] at hp
      rcases hp with hp | hp
      · exact (hsuits.shares (p := .ref site name) hp (n + 1)).refuses
      · exact .ref (hholds.refusing n (by omega) name hp)

theorem Holds.refusesInOrder (hsuits : k.Suits a b) (hholds : k.Holds a b depth) :
    (items : List Pattern) → (n : Nat) → n + 1 ≤ depth → Pattern.refusesInOrder k items = true →
      Refuses a b k.cue false (n + 1) (.seq items)
  | [], _, _, _ => fun _ _ h => nomatch h
  | item :: items, n, hn, hp => by
      simp only [Pattern.refusesInOrder, Bool.and_eq_true, Bool.or_eq_true] at hp
      apply Refuses.seq_cons (hholds.refuses hsuits item n (by omega) hp.1)
      rcases hp.2 with hnever | ⟨hshared, hitems⟩
      · exact .inl fun _ => hsuits.not_failed (p := .seq items) hnever
      · exact .inr ⟨hsuits.shares hshared n, hholds.refusesInOrder hsuits items n hn hitems⟩

theorem Holds.allRefuse (hsuits : k.Suits a b) (hholds : k.Holds a b depth) :
    (items : List Pattern) → (n : Nat) → n + 1 ≤ depth → Pattern.allRefuse k items = true →
      Refuses a b k.cue false (n + 1) (.choice items)
  | [], _, _, _ => .choice_nil
  | item :: items, n, hn, hp => by
      simp only [Pattern.allRefuse, Bool.and_eq_true] at hp
      exact .choice_cons (hholds.refuses hsuits item n (by omega) hp.1)
        (hholds.allRefuse hsuits items n hn hp.2)

end

mutual

/-- The matches of a pattern are carried if the passage says so. -/
theorem Holds.carries (hsuits : k.Suits a b) (hholds : k.Holds a b depth) :
    (p : Pattern) → (known : Bool) → (n : Nat) → n ≤ depth → p.carries k known = true →
      Carries a b k.cue known n p
  | _, _, 0, _, _ => .zero
  | .terminal t, _, n + 1, _, _ => (hsuits.shares (p := .terminal t) rfl (n + 1)).carries
  | .seq items, known, n + 1, hn, hp => hholds.carriesInOrder hsuits items known n hn hp
  | .choice items, known, n + 1, hn, hp => hholds.carriesInTurn hsuits items known n hn hp
  | .star site body, known, n + 1, hn, hp => by
      simp only [Pattern.carries, Bool.and_eq_true, Bool.or_eq_true] at hp
      have hrefuses : Refuses a b k.cue known n body :=
        (hholds.refuses hsuits body n (by omega) hp.1).of_false
      rcases hp.2 with hbody | ⟨⟨rfl, hbody⟩, hleads⟩
      · exact .star hsuits.cue hrefuses (hholds.carries hsuits body false n (by omega) hbody) nofun
      · exact .star hsuits.cue hrefuses (hholds.carries hsuits body true n (by omega) hbody)
          fun _ => ⟨rfl, hleads⟩
  | .plus site body, known, n + 1, hn, hp => by
      simp only [Pattern.carries, Bool.and_eq_true, Bool.or_eq_true] at hp
      have hrefuses : Refuses a b k.cue known n body :=
        (hholds.refuses hsuits body n (by omega) hp.1).of_false
      rcases hp.2 with hbody | ⟨⟨rfl, hbody⟩, hleads⟩
      · exact .plus hsuits.cue hrefuses (hholds.carries hsuits body false n (by omega) hbody) nofun
      · exact .plus hsuits.cue hrefuses (hholds.carries hsuits body true n (by omega) hbody)
          fun _ => ⟨rfl, hleads⟩
  | .opt body, known, n + 1, hn, hp => by
      simp only [Pattern.carries, Bool.and_eq_true] at hp
      exact .opt (hholds.refuses hsuits body n (by omega) hp.1).of_false
        (hholds.carries hsuits body known n (by omega) hp.2)
  | .atMost count body, _, n + 1, _, hp =>
      (hsuits.shares (p := .atMost count body) hp (n + 1)).carries
  | .lookahead negated body, _, n + 1, _, hp =>
      (hsuits.shares (p := .lookahead negated body) hp (n + 1)).carries
  | .skipTo stop, _, n + 1, _, hp => (hsuits.shares (p := .skipTo stop) hp (n + 1)).carries
  | .repeatUntil site stop body, known, n + 1, hn, hp => by
      simp only [Pattern.carries, Bool.and_eq_true, Bool.or_eq_true] at hp
      have hrefuses := hholds.refuses hsuits stop n (by omega) hp.1.1
      have hstop := hholds.carries hsuits stop known n (by omega) hp.1.2
      rcases hp.2 with hbody | ⟨⟨hbody, hstopLeads⟩, hbodyLeads⟩
      · exact .repeatUntil hsuits.cue hrefuses hstop
          (hholds.carries hsuits body false n (by omega) hbody) nofun
      · exact .repeatUntil hsuits.cue hrefuses hstop
          (hholds.carries hsuits body true n (by omega) hbody) fun _ => ⟨hstopLeads, hbodyLeads⟩
  | .must body, known, n + 1, hn, hp => .must (hholds.carries hsuits body known n (by omega) hp)
  | .rule name, _, n + 1, _, hp => (hsuits.shares (p := .rule name) hp (n + 1)).carries
  | .ref site name, known, n + 1, hn, hp => by
      simp only [Pattern.carries, Bool.or_eq_true, Bool.and_eq_true] at hp
      rcases hp with (hp | hp) | ⟨rfl, hp⟩
      · exact (hsuits.shares (p := .ref site name) hp (n + 1)).carries
      · exact .ref (hholds.sealed n (by omega) name hp).of_false
      · exact .ref (hholds.passing n (by omega) name hp)

theorem Holds.carriesInOrder (hsuits : k.Suits a b) (hholds : k.Holds a b depth) :
    (items : List Pattern) → (known : Bool) → (n : Nat) → n + 1 ≤ depth →
      Pattern.carriesInOrder k known items = true → Carries a b k.cue known (n + 1) (.seq items)
  | [], _, _, _, _ => .seq_nil
  | item :: items, known, n, hn, hp => by
      simp only [Pattern.carriesInOrder, Bool.and_eq_true, Bool.or_eq_true] at hp
      have hothers := hholds.carriesInOrder hsuits items known n hn hp.2
      rcases hp.1 with hitem | ⟨hitem, hleads⟩
      · exact .seq_cons hsuits.cue (hholds.carries hsuits item false n (by omega) hitem) nofun
          hothers
      · exact .seq_cons hsuits.cue (hholds.carries hsuits item true n (by omega) hitem)
          (fun _ => hleads) hothers

theorem Holds.carriesInTurn (hsuits : k.Suits a b) (hholds : k.Holds a b depth) :
    (items : List Pattern) → (known : Bool) → (n : Nat) → n + 1 ≤ depth →
      Pattern.carriesInTurn k known items = true → Carries a b k.cue known (n + 1) (.choice items)
  | [], _, _, _, _ => .choice_nil
  | item :: items, known, n, hn, hp => by
      simp only [Pattern.carriesInTurn, Bool.and_eq_true, Bool.or_eq_true] at hp
      apply Carries.choice_cons (hholds.carries hsuits item known n (by omega) hp.1.1)
      · exact hp.1.2.imp List.isEmpty_iff.mp (hholds.refuses hsuits item n (by omega))
      · exact hholds.carriesInTurn hsuits items known n hn hp.2

end

end Passage

end CartLua
