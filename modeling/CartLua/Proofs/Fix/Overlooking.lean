import CartLua.Proofs.Dialect.Carrying

/-!
# Differences that patterns overlook

Two texts that differ a little are often matched alike: a pattern fails on both of them, or it
matches both and what it leaves differs a little again.  Such a pattern overlooks the difference.
Of a text in error nothing is said.

Each way of putting patterns together overlooks what its parts overlook, within the same depth.
What differs may change from part to part, as long as each part can cope with what the one before
it leaves.
-/

namespace CartLua

namespace Answer

variable {P Q R : List Char → List Char → Prop} {x y : Answer} {s t : List Char}

theorem matched_ne_broken {parts : List Tree} : matched parts s ≠ broken := by
  rintro ⟨⟩

theorem failed_ne_broken : failed ≠ broken := by
  rintro ⟨⟩

theorem ne_broken_of_after {parts : List Tree} (h : x.after parts ≠ broken) : x ≠ broken := by
  rintro rfl
  exact h rfl

theorem ne_broken_of_orNothing (h : x.orNothing s ≠ broken) : x ≠ broken := by
  rintro rfl
  exact h rfl

theorem ne_broken_of_looked {negated : Bool} (h : x.looked negated s ≠ broken) : x ≠ broken := by
  rintro rfl
  exact h rfl

theorem ne_broken_of_named {rule : Rule} (h : x.named rule ≠ broken) : x ≠ broken := by
  rintro rfl
  exact h rfl

/-- Whether two answers are failures, or matches that leave related texts. -/
inductive Alike (Q : List Char → List Char → Prop) : Answer → Answer → Prop
  | matched {parts more : List Tree} {rest other : List Char} (left : Q rest other) :
      Alike Q (.matched parts rest) (.matched more other)
  | failed : Alike Q .failed .failed

namespace Alike

theorem refl (hQ : ∀ s, Q s s) (hx : x ≠ broken) : x.Alike Q x := by
  cases x with
  | matched parts rest => exact .matched (hQ rest)
  | failed => exact .failed
  | broken => exact absurd rfl hx

theorem mono (h : x.Alike Q y) (hQR : ∀ s t, Q s t → R s t) : x.Alike R y := by
  cases h with
  | matched hleft => exact .matched (hQR _ _ hleft)
  | failed => exact .failed

theorem isMatch (h : x.Alike Q y) (hy : y.IsMatch) : x.IsMatch := by
  cases h with
  | matched _ => trivial
  | failed => exact hy

theorem after (h : x.Alike Q y) (parts more : List Tree) :
    (x.after parts).Alike Q (y.after more) := by
  cases h with
  | matched hleft => exact .matched hleft
  | failed => exact .failed

theorem named (h : x.Alike Q y) (rule : Rule) : (x.named rule).Alike Q (y.named rule) := by
  cases h with
  | matched hleft => exact .matched hleft
  | failed => exact .failed

theorem orNothing (h : x.Alike Q y) (hst : Q s t) : (x.orNothing s).Alike Q (y.orNothing t) := by
  cases h with
  | matched hleft => exact .matched hleft
  | failed => exact .matched hst

/-- Looking ahead leaves the texts as they were. -/
theorem looked (h : x.Alike Q y) (hst : P s t) (negated : Bool) :
    (x.looked negated s).Alike P (y.looked negated t) := by
  cases h <;> cases negated
  · exact .matched hst
  · exact .failed
  · exact .failed
  · exact .matched hst

end Alike

end Answer

/-- Whether a pattern makes of a text what it makes of a related one, unless it is in error, and
what is left is related again. -/
def Overlooks (g : Grammar) (P Q : List Char → List Char → Prop) (n : Nat) (p : Pattern) : Prop :=
  ∀ ⦃s t⦄, P s t → ∀ ⦃x⦄, DerivesIn g n p s x → x ≠ .broken →
    ∃ y, DerivesIn g n p t y ∧ x.Alike Q y

namespace Overlooks

variable {g : Grammar} {P Q R S : List Char → List Char → Prop} {n : Nat} {p : Pattern}
  {items : List Pattern}

theorem zero : Overlooks g P Q 0 p := fun _ _ _ _ h => nomatch h

theorem mono (h : Overlooks g P Q n p) (hP : ∀ s t, R s t → P s t) (hQ : ∀ s t, Q s t → S s t) :
    Overlooks g R S n p := by
  intro s t hst x hx hunbroken
  obtain ⟨y, hy, halike⟩ := h (hP s t hst) hx hunbroken
  exact ⟨y, hy, halike.mono hQ⟩

theorem seq_nil (hPQ : ∀ s t, P s t → Q s t) : Overlooks g P Q n (.seq []) := by
  intro s t hst x h _
  cases h with
  | seqNil => exact ⟨_, .seqNil t, .matched (hPQ s t hst)⟩

/-- The others in a sequence only matter if the first item matches at all. -/
theorem seq_cons (hfirst : Overlooks g P R (n - 1) p)
    (hothers : (∃ s parts rest, DerivesIn g (n - 1) p s (.matched parts rest)) →
      Overlooks g R Q n (.seq items)) :
    Overlooks g P Q n (.seq (p :: items)) := by
  intro s t hst x h hunbroken
  cases h with
  | @seqCons _ _ _ _ middle parts x first others =>
      obtain ⟨_, hmatch, hleft⟩ := hfirst hst first Answer.matched_ne_broken
      cases hleft with
      | matched hleft =>
          have hrest := Answer.ne_broken_of_after hunbroken
          obtain ⟨y, hy, halike⟩ := hothers ⟨s, parts, middle, first⟩ hleft others hrest
          exact ⟨_, .seqCons hmatch hy, halike.after _ _⟩
  | seqStop first stops =>
      obtain ⟨y, hy, halike⟩ := hfirst hst first hunbroken
      cases halike with
      | matched _ => exact absurd trivial stops
      | failed => exact ⟨_, .seqStop hy id, .failed⟩

theorem seq (h : ∀ item ∈ items, Overlooks g P P (n - 1) item) :
    Overlooks g P P n (.seq items) := by
  induction items with
  | nil => exact .seq_nil fun _ _ => id
  | cons item items ih =>
      exact .seq_cons (h item List.mem_cons_self) fun _ =>
        ih fun other hother => h other (List.mem_cons_of_mem item hother)

/-- The others in a choice only matter where the first item fails. -/
theorem choice_cons (hfirst : Overlooks g P Q (n - 1) p)
    (hothers : Overlooks g (fun s t => P s t ∧ DerivesIn g (n - 1) p s .failed) Q n
      (.choice items)) :
    Overlooks g P Q n (.choice (p :: items)) := by
  intro s t hst x hx hunbroken
  cases hx with
  | choiceHere first taken =>
      obtain ⟨y, hy, halike⟩ := hfirst hst first hunbroken
      cases halike with
      | matched hleft => exact ⟨_, .choiceHere hy nofun, .matched hleft⟩
      | failed => exact absurd rfl taken
  | choiceNext first others =>
      obtain ⟨_, hmiss, hfailed⟩ := hfirst hst first Answer.failed_ne_broken
      cases hfailed with
      | failed =>
          obtain ⟨y, hy, halike⟩ := hothers ⟨hst, first⟩ others hunbroken
          exact ⟨y, .choiceNext hmiss hy, halike⟩

theorem choice_nil : Overlooks g P Q n (.choice []) := by
  intro s t _ x hx _
  cases hx with
  | choiceNil => exact ⟨_, .choiceNil t, .failed⟩

theorem choice (h : ∀ item ∈ items, Overlooks g P Q (n - 1) item) :
    Overlooks g P Q n (.choice items) := by
  induction items with
  | nil => exact .choice_nil
  | cons item items ih =>
      have hothers := ih fun other hother => h other (List.mem_cons_of_mem item hother)
      exact .choice_cons (h item List.mem_cons_self)
        (hothers.mono (fun _ _ hst => hst.1) fun _ _ => id)

/-- A loop overlooks what each of its rounds passes on. -/
theorem star {site : Site} (hround : Overlooks g P P (n - 1) p) :
    Overlooks g P P n (.star site p) := by
  intro s t hst x h hunbroken
  generalize hm : n = m at h
  generalize hq : Pattern.star site p = q at h
  induction h generalizing t with
  | @starMore _ _ _ s middle parts x round others _ ihothers =>
      cases hm
      cases hq
      obtain ⟨_, hmatch, hleft⟩ := hround hst round Answer.matched_ne_broken
      cases hleft with
      | matched hleft =>
          have hrest := Answer.ne_broken_of_after hunbroken
          obtain ⟨y, hy, halike⟩ := ihothers hleft hrest rfl rfl
          exact ⟨_, .starMore hmatch hy, halike.after _ _⟩
  | @starStop _ _ _ s x round stops _ =>
      cases hm
      cases hq
      have hround' := Answer.ne_broken_of_orNothing hunbroken
      obtain ⟨y, hy, halike⟩ := hround hst round hround'
      exact ⟨_, .starStop hy fun hmatch => stops (halike.isMatch hmatch), halike.orNothing hst⟩
  | _ => cases hq

theorem plus {site : Site} (hround : Overlooks g P Q (n - 1) p)
    (hothers : Overlooks g Q Q n (.star site p)) : Overlooks g P Q n (.plus site p) := by
  intro s t hst x h hunbroken
  cases h with
  | @plusMore _ _ _ _ middle parts x round others =>
      obtain ⟨_, hmatch, hleft⟩ := hround hst round Answer.matched_ne_broken
      cases hleft with
      | matched hleft =>
          have hrest := Answer.ne_broken_of_after hunbroken
          obtain ⟨y, hy, halike⟩ := hothers hleft others hrest
          exact ⟨_, .plusMore hmatch hy, halike.after _ _⟩
  | plusStop round stops =>
      obtain ⟨y, hy, halike⟩ := hround hst round hunbroken
      exact ⟨_, .plusStop hy fun hmatch => stops (halike.isMatch hmatch), halike⟩

theorem opt (h : Overlooks g P Q (n - 1) p) (hPQ : ∀ s t, P s t → Q s t) :
    Overlooks g P Q n (.opt p) := by
  intro s t hst x hx hunbroken
  cases hx with
  | @opt _ _ _ x inner =>
      have hinner := Answer.ne_broken_of_orNothing hunbroken
      obtain ⟨y, hy, halike⟩ := h hst inner hinner
      exact ⟨_, .opt hy, halike.orNothing (hPQ s t hst)⟩

theorem atMost {count : Int} (hround : Overlooks g P P (n - 1) p) :
    Overlooks g P P n (.atMost count p) := by
  intro s t hst x h hunbroken
  generalize hm : n = m at h
  generalize hq : Pattern.atMost count p = q at h
  induction h generalizing t count with
  | atMostZero s done =>
      cases hm
      cases hq
      exact ⟨_, .atMostZero t done, .matched hst⟩
  | @atMostMore _ _ _ s middle parts x left round others _ ihothers =>
      cases hm
      cases hq
      obtain ⟨_, hmatch, hleft⟩ := hround hst round Answer.matched_ne_broken
      cases hleft with
      | matched hleft =>
          have hrest := Answer.ne_broken_of_after hunbroken
          obtain ⟨y, hy, halike⟩ := ihothers hleft hrest rfl rfl
          exact ⟨_, .atMostMore left hmatch hy, halike.after _ _⟩
  | @atMostStop _ _ _ s x left round stops _ =>
      cases hm
      cases hq
      have hround' := Answer.ne_broken_of_orNothing hunbroken
      obtain ⟨y, hy, halike⟩ := hround hst round hround'
      exact ⟨_, .atMostStop left hy fun hmatch => stops (halike.isMatch hmatch),
        halike.orNothing hst⟩
  | _ => cases hq

theorem lookahead {negated : Bool} (h : Overlooks g P Q (n - 1) p) :
    Overlooks g P P n (.lookahead negated p) := by
  intro s t hst x hx hunbroken
  cases hx with
  | @lookahead _ _ _ _ x inner =>
      have hinner := Answer.ne_broken_of_looked hunbroken
      obtain ⟨y, hy, halike⟩ := h hst inner hinner
      exact ⟨_, .lookahead hy, halike.looked hst negated⟩

theorem repeatUntil {site : Site} {stop : Pattern} (hstop : Overlooks g P P (n - 1) stop)
    (hround : Overlooks g P P (n - 1) p) : Overlooks g P P n (.repeatUntil site stop p) := by
  intro s t hst x h hunbroken
  generalize hm : n = m at h
  generalize hq : Pattern.repeatUntil site stop p = q at h
  induction h generalizing t with
  | untilHere here taken _ =>
      cases hm
      cases hq
      obtain ⟨y, hy, halike⟩ := hstop hst here hunbroken
      cases halike with
      | matched hleft => exact ⟨_, .untilHere hy nofun, .matched hleft⟩
      | failed => exact absurd rfl taken
  | @untilMore _ _ _ _ s middle parts x here round others _ _ ihothers =>
      cases hm
      cases hq
      obtain ⟨_, hhere, hfailed⟩ := hstop hst here Answer.failed_ne_broken
      obtain ⟨_, hmatch, hleft⟩ := hround hst round Answer.matched_ne_broken
      cases hfailed with
      | failed =>
          cases hleft with
          | matched hleft =>
              have hrest := Answer.ne_broken_of_after hunbroken
              obtain ⟨y, hy, halike⟩ := ihothers hleft hrest rfl rfl
              exact ⟨_, .untilMore hhere hmatch hy, halike.after _ _⟩
  | untilStop here round stops _ _ =>
      cases hm
      cases hq
      obtain ⟨_, hhere, hfailed⟩ := hstop hst here Answer.failed_ne_broken
      obtain ⟨y, hy, halike⟩ := hround hst round hunbroken
      cases hfailed with
      | failed =>
          exact ⟨_, .untilStop hhere hy fun hmatch => stops (halike.isMatch hmatch), halike⟩
  | _ => cases hq

/-- A part that is committed only matters where it matches. -/
theorem must_of_matched (h : ∀ ⦃s t⦄, P s t → ∀ ⦃parts rest⦄,
      DerivesIn g (n - 1) p s (.matched parts rest) →
        ∃ more other, DerivesIn g (n - 1) p t (.matched more other) ∧ Q rest other) :
    Overlooks g P Q n (.must p) := by
  intro s t hst x hx hunbroken
  cases hx with
  | @must _ _ _ x inner =>
      cases x with
      | matched parts rest =>
          obtain ⟨more, other, hmatch, hleft⟩ := h hst inner
          exact ⟨_, .must hmatch, .matched hleft⟩
      | failed => exact absurd rfl hunbroken
      | broken => exact absurd rfl hunbroken

theorem must (h : Overlooks g P Q (n - 1) p) : Overlooks g P Q n (.must p) := by
  apply must_of_matched
  intro s t hst parts rest hmatch
  obtain ⟨_, hy, halike⟩ := h hst hmatch Answer.matched_ne_broken
  cases halike with
  | matched hleft => exact ⟨_, _, hy, hleft⟩

theorem rule {name : String} {rule : Rule} (hrule : g.rule? name = some rule)
    (h : Overlooks g P Q (n - 1) rule.body) : Overlooks g P Q n (.rule name) := by
  intro s t hst x hx hunbroken
  cases hx with
  | @rule _ _ found _ x hfound inner =>
      cases hrule.symm.trans hfound
      have hinner := Answer.ne_broken_of_named hunbroken
      obtain ⟨y, hy, halike⟩ := h hst inner hinner
      exact ⟨_, .rule hrule hy, halike.named rule⟩

theorem ref {site : Site} {name : String} (h : Overlooks g P Q (n - 1) (.rule name)) :
    Overlooks g P Q n (.ref site name) := by
  intro s t hst x hx hunbroken
  cases hx with
  | ref linked inner =>
      obtain ⟨y, hy, halike⟩ := h hst inner hunbroken
      exact ⟨y, .ref linked hy, halike⟩

end Overlooks

end CartLua
