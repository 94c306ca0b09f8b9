import CartLua.Proofs.Derivation.Bounded
import CartLua.Proofs.Dialect.Cues

/-!
# Carrying matches between the dialects

A pattern is carried from one dialect to the other if the other one matches the same text
with it, within the same depth.  Most patterns are carried because their parts are.  To
carry a match, what was tried before it has to fail in the other dialect as well; and a
pattern may be carried only where the text goes on in a certain way, which what follows it
in a sequence has to show.

Only matches without extensions are carried.
-/

namespace CartLua

open Dialect

/-- Whether no rule of an extension is among the rules that matched. -/
def Tree.Plain (parts : List Tree) : Prop :=
  ∀ n ∈ nodesOfAll parts, OccurrenceKind.ofName? n.1.name = none

namespace Tree.Plain

theorem nil : Plain [] := fun _ h => absurd h List.not_mem_nil

theorem append_iff {parts more : List Tree} :
    Plain (parts ++ more) ↔ Plain parts ∧ Plain more := by
  rw [Plain, nodesOfAll_append, List.forall_mem_append]
  rfl

theorem node_iff {rule : Rule} {parts : List Tree} :
    Plain [.node rule parts] ↔ OccurrenceKind.ofName? rule.name = none ∧ Plain parts := by
  simp [Plain, nodesOfAll, nodes]

end Tree.Plain

open CartLua.Tree (Plain)

namespace DerivesIn

variable {g : Grammar} {n : Nat} {p : Pattern} {s rest : List Char} {parts : List Tree}

/-- A sequence that matches has a first item that matches and others that match after it. -/
theorem of_seq_cons {items : List Pattern}
    (h : DerivesIn g (n + 1) (.seq (p :: items)) s (.matched parts rest)) :
    ∃ first middle others, DerivesIn g n p s (.matched first middle) ∧
      DerivesIn g (n + 1) (.seq items) middle (.matched others rest) ∧ parts = first ++ others := by
  generalize ha : Answer.matched parts rest = a at h
  cases h with
  | @seqCons _ _ _ _ _ _ a first others =>
      cases a <;> cases ha
      exact ⟨_, _, _, first, others, rfl⟩
  | seqStop _ stops =>
      subst ha
      exact absurd trivial stops

/-- A sequence that fails has a first item that fails, or others that fail after it. -/
theorem of_failed_seq {items : List Pattern}
    (h : DerivesIn g (n + 1) (.seq (p :: items)) s .failed) :
    DerivesIn g n p s .failed ∨ ∃ first middle, DerivesIn g n p s (.matched first middle) ∧
      DerivesIn g (n + 1) (.seq items) middle .failed := by
  generalize ha : Answer.failed = a at h
  cases h with
  | @seqCons _ _ _ _ _ _ a first others =>
      cases a <;> cases ha
      exact .inr ⟨_, _, first, others⟩
  | seqStop first _ => exact .inl (ha ▸ first)

/-- Of a choice that matches, the first item does, or it fails and the others do. -/
theorem of_choice_cons {items : List Pattern}
    (h : DerivesIn g (n + 1) (.choice (p :: items)) s (.matched parts rest)) :
    DerivesIn g n p s (.matched parts rest) ∨ DerivesIn g n p s .failed ∧
      DerivesIn g (n + 1) (.choice items) s (.matched parts rest) := by
  cases h with
  | choiceHere first _ => exact .inl first
  | choiceNext first others => exact .inr ⟨first, others⟩

/-- Of a choice that fails, all items do. -/
theorem of_failed_choice {items : List Pattern}
    (h : DerivesIn g (n + 1) (.choice (p :: items)) s .failed) :
    DerivesIn g n p s .failed ∧ DerivesIn g (n + 1) (.choice items) s .failed := by
  cases h with
  | choiceHere _ taken => exact absurd rfl taken
  | choiceNext first others => exact ⟨first, others⟩

/-- Of a choice in two parts that matches, the first part does, or it fails and the second
one does. -/
theorem of_choice_append {items more : List Pattern}
    (h : DerivesIn g (n + 1) (.choice (items ++ more)) s (.matched parts rest)) :
    DerivesIn g (n + 1) (.choice items) s (.matched parts rest) ∨
      DerivesIn g (n + 1) (.choice items) s .failed ∧
        DerivesIn g (n + 1) (.choice more) s (.matched parts rest) := by
  induction items with
  | nil => exact .inr ⟨.choiceNil s, h⟩
  | cons item items ih =>
      rcases h.of_choice_cons with hfirst | ⟨hfailed, hothers⟩
      · exact .inl (.choiceHere hfirst (by simp))
      · rcases ih hothers with hitems | ⟨hitems, hmore⟩
        · exact .inl (.choiceNext hfailed hitems)
        · exact .inr ⟨.choiceNext hfailed hitems, hmore⟩

/-- Of a choice in two parts that fails, both parts do. -/
theorem of_failed_choice_append {items more : List Pattern}
    (h : DerivesIn g (n + 1) (.choice (items ++ more)) s .failed) :
    DerivesIn g (n + 1) (.choice items) s .failed ∧
      DerivesIn g (n + 1) (.choice more) s .failed := by
  induction items with
  | nil => exact ⟨.choiceNil s, h⟩
  | cons item items ih =>
      obtain ⟨hfailed, hothers⟩ := h.of_failed_choice
      obtain ⟨hitems, hmore⟩ := ih hothers
      exact ⟨.choiceNext hfailed hitems, hmore⟩

/-- Where the first part of a choice matches, the choice does. -/
theorem choice_left {items : List Pattern} (more : List Pattern)
    (h : DerivesIn g (n + 1) (.choice items) s (.matched parts rest)) :
    DerivesIn g (n + 1) (.choice (items ++ more)) s (.matched parts rest) := by
  induction items with
  | nil => nomatch h
  | cons item items ih =>
      rcases h.of_choice_cons with hfirst | ⟨hfailed, hothers⟩
      · exact .choiceHere hfirst (by simp)
      · exact .choiceNext hfailed (ih hothers)

/-- Where the first part of a choice fails, the second one decides. -/
theorem choice_right {items more : List Pattern} {a : Answer}
    (hitems : DerivesIn g (n + 1) (.choice items) s .failed)
    (h : DerivesIn g (n + 1) (.choice more) s a) :
    DerivesIn g (n + 1) (.choice (items ++ more)) s a := by
  induction items with
  | nil => exact h
  | cons item items ih =>
      obtain ⟨hfailed, hothers⟩ := hitems.of_failed_choice
      exact .choiceNext hfailed (ih hothers)

theorem of_opt (h : DerivesIn g (n + 1) (.opt p) s (.matched parts rest)) :
    DerivesIn g n p s (.matched parts rest) ∨
      DerivesIn g n p s .failed ∧ parts = [] ∧ rest = s := by
  generalize ha : Answer.matched parts rest = a at h
  cases h with
  | @opt _ _ _ a inner =>
      cases a <;> cases ha
      · exact .inl inner
      · exact .inr ⟨inner, rfl, rfl⟩

theorem of_must (h : DerivesIn g (n + 1) (.must p) s (.matched parts rest)) :
    DerivesIn g n p s (.matched parts rest) := by
  generalize ha : Answer.matched parts rest = a at h
  cases h with
  | @must _ _ _ a inner =>
      cases a <;> cases ha
      exact inner

/-- A rule that matches has a body that does. -/
theorem of_rule {name : String}
    (h : DerivesIn g (n + 1) (.rule name) s (.matched parts rest)) :
    ∃ rule inner, g.rule? name = some rule ∧ DerivesIn g n rule.body s (.matched inner rest) ∧
      parts = [.node rule inner] := by
  generalize ha : Answer.matched parts rest = a at h
  cases h with
  | @rule _ _ rule _ a found inner =>
      cases a <;> cases ha
      exact ⟨rule, _, found, inner, rfl⟩

/-- A rule that fails has a body that does. -/
theorem of_failed_rule {name : String} (h : DerivesIn g (n + 1) (.rule name) s .failed) :
    ∃ rule, g.rule? name = some rule ∧ DerivesIn g n rule.body s .failed := by
  generalize ha : Answer.failed = a at h
  cases h with
  | @rule _ _ rule _ a found inner =>
      cases a <;> cases ha
      exact ⟨rule, found, inner⟩

theorem of_ref {site : Site} {name : String} {a : Answer}
    (h : DerivesIn g (n + 1) (.ref site name) s a) :
    g.isLinked site name = true ∧ DerivesIn g n (.rule name) s a := by
  cases h with
  | ref linked inner => exact ⟨linked, inner⟩

end DerivesIn

/-- A rule that a dialect derives is linked there. -/
theorem isLinked_of_rule {a b : Dialect} {n : Nat} {site : Site} {name : String} {s : List Char}
    {x : Answer} (hlinked : a.grammar.isLinked site name = true)
    (h : DerivesIn b.grammar n (.rule name) s x) : b.grammar.isLinked site name = true := by
  cases site with
  | some site =>
      rw [isLinked_grammar_some] at hlinked
      cases hlinked
  | none =>
      cases h with
      | rule found _ =>
          rw [isLinked_grammar, Grammar.defines, found]
          rfl

/-- A rule called by its name fails two levels above its body. -/
theorem DerivesIn.failed_call {dialect : Dialect} {rule : Rule} {n : Nat} {s : List Char}
    (hrule : rule ∈ dialect.rules) (h : DerivesIn dialect.grammar n rule.body s .failed) :
    DerivesIn dialect.grammar (n + 2) (.call rule.name) s .failed :=
  .ref (isLinked_of_mem hrule) (.rule (rule?_grammar hrule) h)

section

variable (a b : Dialect)

/-- Whether a dialect makes the same of every text as another one. -/
def Shares (n : Nat) (p : Pattern) : Prop :=
  ∀ s x, DerivesIn a.grammar n p s x → DerivesIn b.grammar n p s x

/-- Whether a failure in one dialect is one in the other.  With `known`, the text goes on
as the cue says. -/
def Refuses (cue : Cue) (known : Bool) (n : Nat) (p : Pattern) : Prop :=
  ∀ s, (known = true → cue.Next a.grammar s) → DerivesIn a.grammar n p s .failed →
    DerivesIn b.grammar n p s .failed

/-- Whether a plain match of a pattern in one dialect is one of another pattern in the other
dialect.  With `known`, what is left goes on as the cue says. -/
def CarriesTo (cue : Cue) (known : Bool) (n : Nat) (p q : Pattern) : Prop :=
  ∀ s parts rest, DerivesIn a.grammar n p s (.matched parts rest) → Plain parts →
    (known = true → cue.Next a.grammar rest) →
      ∃ more, DerivesIn b.grammar n q s (.matched more rest) ∧ Plain more

/-- Whether a plain match in one dialect is one in the other. -/
def Carries (cue : Cue) (known : Bool) (n : Nat) (p : Pattern) : Prop :=
  CarriesTo a b cue known n p p

end

variable {a b : Dialect} {cue cue' : Cue} {known : Bool} {n : Nat} {p : Pattern}

theorem Shares.refuses (h : Shares a b n p) : Refuses a b cue known n p :=
  fun s _ hfailed => h s _ hfailed

theorem Shares.carries (h : Shares a b n p) : Carries a b cue known n p :=
  fun s parts _ hmatch hplain _ => ⟨parts, h s _ hmatch, hplain⟩

theorem Refuses.of_false (h : Refuses a b cue' false n p) : Refuses a b cue known n p :=
  fun s _ hfailed => h s nofun hfailed

theorem Carries.of_false (h : Carries a b cue' false n p) : Carries a b cue known n p :=
  fun s parts rest hmatch hplain _ => h s parts rest hmatch hplain nofun

theorem Refuses.zero : Refuses a b cue known 0 p := fun _ _ h => nomatch h

theorem Carries.zero : Carries a b cue known 0 p := fun _ _ _ h => nomatch h

/-- A loop does not fail. -/
theorem Derives.not_failed_star {g : Grammar} {site : Site} {p : Pattern} {s : List Char} :
    ¬Derives g (.star site p) s .failed := by
  intro h
  generalize hp : Pattern.star site p = q at h
  generalize hx : Answer.failed = x at h
  induction h with
  | @starMore _ _ _ _ _ x _ _ _ ihothers =>
      cases x <;> cases hx
      exact ihothers hp rfl
  | @starStop _ _ _ x _ _ _ => cases x <;> cases hx
  | _ => cases hp

namespace Refuses

variable {items : List Pattern}

/-- A sequence fails with its first item, or after a first item that both dialects share. -/
theorem seq_cons (hfirst : Refuses a b cue known n p)
    (hothers : (∀ s, ¬Derives a.grammar (.seq items) s .failed) ∨
      Shares a b n p ∧ Refuses a b cue false (n + 1) (.seq items)) :
    Refuses a b cue known (n + 1) (.seq (p :: items)) := by
  intro s hknown h
  rcases h.of_failed_seq with hfailed | ⟨first, middle, hmatch, hfailed⟩
  · exact .seqStop (hfirst s hknown hfailed) id
  · rcases hothers with hnone | ⟨hshares, hrefuses⟩
    · exact absurd hfailed.erase (hnone middle)
    · exact .seqCons (hshares s _ hmatch) (hrefuses middle nofun hfailed)

theorem choice_nil : Refuses a b cue known (n + 1) (.choice []) := fun s _ _ => .choiceNil s

theorem choice_cons (hfirst : Refuses a b cue known n p)
    (hothers : Refuses a b cue known (n + 1) (.choice items)) :
    Refuses a b cue known (n + 1) (.choice (p :: items)) := by
  intro s hknown h
  obtain ⟨hfailed, hrest⟩ := h.of_failed_choice
  exact .choiceNext (hfirst s hknown hfailed) (hothers s hknown hrest)

theorem plus {site : Site} (h : Refuses a b cue known n p) :
    Refuses a b cue known (n + 1) (.plus site p) := by
  intro s hknown hfailed
  generalize hx : Answer.failed = x at hfailed
  cases hfailed with
  | @plusMore _ _ _ _ _ _ x _ others =>
      cases x <;> cases hx
      exact absurd others.erase Derives.not_failed_star
  | plusStop round _ =>
      subst hx
      exact .plusStop (h s hknown round) id

/-- The failures of a rule that both dialects have are carried if those of its body are. -/
theorem rule {rule : Rule} (hrule : rule ∈ a.rules) (hother : rule ∈ b.rules)
    (h : Refuses a b cue known n rule.body) : Refuses a b cue known (n + 1) (.rule rule.name) := by
  intro s hknown hfailed
  obtain ⟨found, hfound, hbody⟩ := hfailed.of_failed_rule
  cases (rule?_grammar hrule).symm.trans hfound
  exact .rule (rule?_grammar hother) (h s hknown hbody)

theorem ref {site : Site} {name : String} (h : Refuses a b cue known n (.rule name)) :
    Refuses a b cue known (n + 1) (.ref site name) := by
  intro s hknown hfailed
  obtain ⟨hlinked, hrule⟩ := hfailed.of_ref
  have hcarried := h s hknown hrule
  exact .ref (isLinked_of_rule hlinked hcarried) hcarried

end Refuses

namespace Carries

variable {items : List Pattern}

theorem seq_nil : Carries a b cue known (n + 1) (.seq []) := by
  intro s parts rest h hplain _
  cases h with
  | seqNil => exact ⟨[], .seqNil s, hplain⟩

/-- An item is carried in a sequence if the items after it show how the text goes on. -/
theorem seq_cons (hcue : cue.fits a = true) {before : Bool} (hfirst : Carries a b cue before n p)
    (hleads : before = true → Pattern.leadsInOrder cue known items = true)
    (hothers : Carries a b cue known (n + 1) (.seq items)) :
    Carries a b cue known (n + 1) (.seq (p :: items)) := by
  intro s parts rest h hplain hknown
  obtain ⟨first, middle, others, hmatch, hrest, rfl⟩ := h.of_seq_cons
  obtain ⟨hplainFirst, hplainOthers⟩ := Plain.append_iff.mp hplain
  have hnext : before = true → cue.Next a.grammar middle := fun hbefore =>
    next_of_leads hcue (p := .seq items) (hleads hbefore) hrest.erase hknown
  obtain ⟨more, hmore, hplainMore⟩ := hfirst s first middle hmatch hplainFirst hnext
  obtain ⟨later, hlater, hplainLater⟩ := hothers middle others rest hrest hplainOthers hknown
  exact ⟨more ++ later, .seqCons hmore hlater, Plain.append_iff.mpr ⟨hplainMore, hplainLater⟩⟩

/-- Items after which the text goes on as another cue says, whatever follows. -/
theorem seq_cons_of_leads (hcue : cue'.fits a = true) (hfirst : Carries a b cue' true n p)
    (hleads : Pattern.leadsInOrder cue' false items = true)
    (hothers : Carries a b cue known (n + 1) (.seq items)) :
    Carries a b cue known (n + 1) (.seq (p :: items)) := by
  intro s parts rest h hplain hknown
  obtain ⟨first, middle, others, hmatch, hrest, rfl⟩ := h.of_seq_cons
  obtain ⟨hplainFirst, hplainOthers⟩ := Plain.append_iff.mp hplain
  have hnext := next_at_once hcue (p := .seq items) hleads hrest.erase
  obtain ⟨more, hmore, hplainMore⟩ := hfirst s first middle hmatch hplainFirst fun _ => hnext
  obtain ⟨later, hlater, hplainLater⟩ := hothers middle others rest hrest hplainOthers hknown
  exact ⟨more ++ later, .seqCons hmore hlater, Plain.append_iff.mpr ⟨hplainMore, hplainLater⟩⟩

theorem choice_nil : Carries a b cue known (n + 1) (.choice []) := by
  intro s parts rest h
  nomatch h

/-- An alternative is carried if the ones before it fail in both dialects. -/
theorem choice_cons (hfirst : Carries a b cue known n p)
    (hrefuses : items = [] ∨ Refuses a b cue false n p)
    (hothers : Carries a b cue known (n + 1) (.choice items)) :
    Carries a b cue known (n + 1) (.choice (p :: items)) := by
  intro s parts rest h hplain hknown
  rcases h.of_choice_cons with hmatch | ⟨hfailed, hrest⟩
  · obtain ⟨more, hmore, hplainMore⟩ := hfirst s parts rest hmatch hplain hknown
    exact ⟨more, .choiceHere hmore (by simp), hplainMore⟩
  · rcases hrefuses with rfl | hrefuses
    · nomatch hrest
    · obtain ⟨more, hmore, hplainMore⟩ := hothers s parts rest hrest hplain hknown
      exact ⟨more, .choiceNext (hrefuses s nofun hfailed) hmore, hplainMore⟩

/-- A loop is carried if its rounds are, and its end. -/
theorem star (hcue : cue.fits a = true) {site : Site} {before : Bool}
    (hrefuses : Refuses a b cue known n p) (hround : Carries a b cue before n p)
    (hleads : before = true → known = true ∧ p.leads cue true = true) :
    Carries a b cue known (n + 1) (.star site p) := by
  intro s parts rest h hplain hknown
  generalize hn : n + 1 = m at h
  generalize hq : Pattern.star site p = q at h
  generalize hx : Answer.matched parts rest = x at h
  induction h generalizing parts with
  | @starMore _ _ _ s middle first x round others _ ihothers =>
      cases hn
      cases hq
      cases x <;> cases hx
      obtain ⟨hplainFirst, hplainOthers⟩ := Plain.append_iff.mp hplain
      have hnext : before = true → cue.Next a.grammar middle := by
        intro hbefore
        obtain ⟨hknown', hbody⟩ := hleads hbefore
        have hstar : (Pattern.star site p).leads cue true = true := hbody
        exact next_through hcue hstar others.erase (hknown hknown')
      obtain ⟨more, hmore, hplainMore⟩ := hround s first middle round hplainFirst hnext
      obtain ⟨later, hlater, hplainLater⟩ := ihothers _ hplainOthers rfl rfl rfl
      exact ⟨more ++ later, .starMore hmore hlater, Plain.append_iff.mpr ⟨hplainMore, hplainLater⟩⟩
  | @starStop _ _ _ s x round stops _ =>
      cases hn
      cases hq
      cases x <;> cases hx
      · exact absurd trivial stops
      · exact ⟨[], .starStop (hrefuses rest hknown round) id, .nil⟩
  | _ => cases hq

theorem plus (hcue : cue.fits a = true) {site : Site} {before : Bool}
    (hrefuses : Refuses a b cue known n p) (hround : Carries a b cue before n p)
    (hleads : before = true → known = true ∧ p.leads cue true = true) :
    Carries a b cue known (n + 1) (.plus site p) := by
  intro s parts rest h hplain hknown
  generalize hx : Answer.matched parts rest = x at h
  cases h with
  | @plusMore _ _ _ _ middle first x round others =>
      cases x <;> cases hx
      obtain ⟨hplainFirst, hplainOthers⟩ := Plain.append_iff.mp hplain
      have hnext : before = true → cue.Next a.grammar middle := by
        intro hbefore
        obtain ⟨hknown', hbody⟩ := hleads hbefore
        have hstar : (Pattern.star site p).leads cue true = true := hbody
        exact next_through hcue hstar others.erase (hknown hknown')
      obtain ⟨more, hmore, hplainMore⟩ := hround s first middle round hplainFirst hnext
      obtain ⟨later, hlater, hplainLater⟩ :=
        star hcue hrefuses hround hleads middle _ rest others hplainOthers hknown
      exact ⟨more ++ later, .plusMore hmore hlater, Plain.append_iff.mpr ⟨hplainMore, hplainLater⟩⟩
  | plusStop _ stops =>
      subst hx
      exact absurd trivial stops

theorem opt (hrefuses : Refuses a b cue known n p) (hinner : Carries a b cue known n p) :
    Carries a b cue known (n + 1) (.opt p) := by
  intro s parts rest h hplain hknown
  rcases h.of_opt with hmatch | ⟨hfailed, rfl, rfl⟩
  · obtain ⟨more, hmore, hplainMore⟩ := hinner s parts rest hmatch hplain hknown
    exact ⟨more, .opt hmore, hplainMore⟩
  · exact ⟨[], .opt (hrefuses rest hknown hfailed), .nil⟩

/-- A loop that goes on until a stop is carried if its rounds and its stop are. -/
theorem repeatUntil (hcue : cue.fits a = true) {site : Site} {stop : Pattern} {before : Bool}
    (hrefuses : Refuses a b cue false n stop) (hstop : Carries a b cue known n stop)
    (hround : Carries a b cue before n p)
    (hleads : before = true → stop.leads cue known = true ∧ p.leads cue true = true) :
    Carries a b cue known (n + 1) (.repeatUntil site stop p) := by
  intro s parts rest h hplain hknown
  generalize hn : n + 1 = m at h
  generalize hq : Pattern.repeatUntil site stop p = q at h
  generalize hx : Answer.matched parts rest = x at h
  induction h generalizing parts with
  | untilHere here taken _ =>
      cases hn
      cases hq
      subst hx
      obtain ⟨more, hmore, hplainMore⟩ := hstop _ parts rest here hplain hknown
      exact ⟨more, .untilHere hmore (by simp), hplainMore⟩
  | @untilMore _ _ _ _ s middle first x here round others _ _ ihothers =>
      cases hn
      cases hq
      cases x <;> cases hx
      obtain ⟨hplainFirst, hplainOthers⟩ := Plain.append_iff.mp hplain
      have hnext : before = true → cue.Next a.grammar middle := by
        intro hbefore
        obtain ⟨hstopLeads, hbodyLeads⟩ := hleads hbefore
        apply next_of_leads hcue (p := .repeatUntil site stop p) _ others.erase hknown
        rw [Pattern.leads, hstopLeads, hbodyLeads]
        rfl
      obtain ⟨more, hmore, hplainMore⟩ := hround s first middle round hplainFirst hnext
      obtain ⟨later, hlater, hplainLater⟩ := ihothers _ hplainOthers rfl rfl rfl
      exact ⟨more ++ later, .untilMore (hrefuses s (by simp) here) hmore hlater,
        Plain.append_iff.mpr ⟨hplainMore, hplainLater⟩⟩
  | untilStop _ _ stops _ _ =>
      subst hx
      exact absurd trivial stops
  | _ => cases hq

theorem must (h : Carries a b cue known n p) : Carries a b cue known (n + 1) (.must p) := by
  intro s parts rest hmatch hplain hknown
  obtain ⟨more, hmore, hplainMore⟩ := h s parts rest hmatch.of_must hplain hknown
  exact ⟨more, .must hmore, hplainMore⟩

theorem ref {site : Site} {name : String} (h : Carries a b cue known n (.rule name)) :
    Carries a b cue known (n + 1) (.ref site name) := by
  intro s parts rest hmatch hplain hknown
  obtain ⟨hlinked, hrule⟩ := hmatch.of_ref
  obtain ⟨more, hmore, hplainMore⟩ := h s parts rest hrule hplain hknown
  exact ⟨more, .ref (isLinked_of_rule hlinked hmore) hmore, hplainMore⟩

/-- A rule is carried if its body is, perhaps to another body. -/
theorem rule {rule other : Rule} (hrule : rule ∈ a.rules) (hother : other ∈ b.rules)
    (hname : other.name = rule.name) (h : CarriesTo a b cue known n rule.body other.body) :
    Carries a b cue known (n + 1) (.rule rule.name) := by
  intro s parts rest hmatch hplain hknown
  obtain ⟨found, inner, hfound, hinner, rfl⟩ := hmatch.of_rule
  cases (rule?_grammar hrule).symm.trans hfound
  obtain ⟨hkind, hplainInner⟩ := Plain.node_iff.mp hplain
  obtain ⟨more, hmore, hplainMore⟩ := h s inner rest hinner hplainInner hknown
  rw [← hname] at hkind ⊢
  exact ⟨[.node other more], .rule (rule?_grammar hother) hmore,
    Plain.node_iff.mpr ⟨hkind, hplainMore⟩⟩

end Carries

end CartLua
