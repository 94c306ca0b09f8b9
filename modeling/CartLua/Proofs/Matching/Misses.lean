import CartLua.Proofs.Derivation.Composition
import CartLua.Proofs.Matching.Frame

/-!
# What a match misses

A match tries many patterns, most of them in vain, and no state holds them all.  The misses of a
match are written down here as a list of their own, in the order in which they happen: the
terminals that are not where they are looked for, outside every lookahead, and the committed part
whose failure ends the match.

The tries of a pattern one level below it form a list as well.  What a state remembers is handed
on from each of them to the next, since what the matcher does between two tries moves nothing but
the cursor.
-/

namespace CartLua

variable {σ : Type}

/-- A pattern that did not match: what was looked for, where, and the rules around it, outermost
first. -/
structure Miss where
  pattern : Pattern
  offset : Nat
  context : List String

namespace Miss

/-- Whether a terminal was looked for. -/
def isTerminal (m : Miss) : Bool :=
  match m.pattern with
  | .terminal _ => true
  | _ => false

/-- The miss as seen from outside a rule. -/
def within (rule : String) (m : Miss) : Miss := { m with context := rule :: m.context }

/-- Remember a miss of a terminal inside some rules if it lies further than the one remembered. -/
def keep (outer : List String) (kept : Nat × List String) (m : Miss) : Nat × List String :=
  if m.isTerminal ∧ kept.1 < m.offset then (m.offset, outer ++ m.context) else kept

/-- The furthest offset among misses, and zero if there are none. -/
def furthest : List Miss → Nat
  | [] => 0
  | m :: misses => max m.offset (furthest misses)

/-- Whether a miss is the first one at the furthest offset among several. -/
def IsFirstFurthest (misses : List Miss) (m : Miss) : Prop :=
  ∃ before after, misses = before ++ m :: after ∧ (∀ x ∈ before, x.offset < m.offset) ∧
    ∀ x ∈ after, x.offset ≤ m.offset

@[simp]
theorem isTerminal_within (rule : String) (m : Miss) : (m.within rule).isTerminal = m.isTerminal :=
  rfl

@[simp]
theorem offset_within (rule : String) (m : Miss) : (m.within rule).offset = m.offset := rfl

/-- Remembering a miss inside a rule is remembering it outside with the rule added. -/
theorem keep_within (outer : List String) (rule : String) :
    (fun kept m => keep outer kept (within rule m)) = keep (outer ++ [rule]) := by
  funext kept m
  simp only [keep, within, List.append_assoc, List.singleton_append]
  rfl

/-- Nothing that is no terminal is remembered. -/
theorem foldl_keep_eq {outer : List String} {misses : List Miss} {kept : Nat × List String}
    (h : ∀ m ∈ misses, m.isTerminal = true → m.offset ≤ kept.1) :
    misses.foldl (keep outer) kept = kept := by
  induction misses with
  | nil => rfl
  | cons m misses ih =>
      have hm : keep outer kept m = kept := by
        refine if_neg fun hfurther => ?_
        exact Nat.not_lt.mpr (h m List.mem_cons_self hfurther.1) hfurther.2
      rw [List.foldl_cons, hm]
      exact ih fun x hx => h x (List.mem_cons_of_mem _ hx)

theorem foldl_keep_lt {outer : List String} {misses : List Miss} {kept : Nat × List String}
    {bound : Nat} (hkept : kept.1 < bound) (h : ∀ m ∈ misses, m.offset < bound) :
    (misses.foldl (keep outer) kept).1 < bound := by
  induction misses generalizing kept with
  | nil => exact hkept
  | cons m misses ih =>
      refine ih ?_ fun x hx => h x (List.mem_cons_of_mem _ hx)
      rw [keep]
      split
      · exact h m List.mem_cons_self
      · exact hkept

/-- What is remembered of misses of terminals in the end is the first one at the furthest offset,
unless that offset is zero. -/
theorem IsFirstFurthest.foldl_keep {misses : List Miss} {m : Miss} (h : IsFirstFurthest misses m)
    (hterminal : ∀ x ∈ misses, x.isTerminal = true) :
    misses.foldl (keep []) (0, []) = if m.offset = 0 then (0, []) else (m.offset, m.context) := by
  obtain ⟨before, after, rfl, hbefore, hafter⟩ := h
  split
  next hzero =>
    refine foldl_keep_eq fun x hx _ => ?_
    rcases List.mem_append.mp hx with hx | hx
    · exact Nat.le_of_lt_succ (Nat.lt_succ_of_lt (hzero ▸ hbefore x hx))
    · rcases List.mem_cons.mp hx with rfl | hx
      · exact Nat.le_of_eq hzero
      · exact hzero ▸ hafter x hx
  next hpos =>
    have hlt : (before.foldl (keep []) (0, [])).1 < m.offset :=
      foldl_keep_lt (Nat.pos_of_ne_zero hpos) hbefore
    rw [List.foldl_append, List.foldl_cons, keep, if_pos ⟨hterminal m (by simp), hlt⟩]
    exact foldl_keep_eq fun x hx _ => hafter x hx

/-- Among misses there is a first one at the furthest offset. -/
theorem exists_isFirstFurthest {misses : List Miss} (h : misses ≠ []) :
    ∃ m, IsFirstFurthest misses m := by
  induction misses with
  | nil => exact absurd rfl h
  | cons first others ih =>
      by_cases hfirst : ∀ x ∈ others, x.offset ≤ first.offset
      · exact ⟨first, [], others, rfl, nofun, hfirst⟩
      · have hothers : others ≠ [] := by
          rintro rfl
          exact hfirst nofun
        obtain ⟨m, before, after, rfl, hbefore, hafter⟩ := ih hothers
        refine ⟨m, first :: before, after, rfl, ?_, hafter⟩
        have hlt : first.offset < m.offset := by
          refine Nat.lt_of_not_le fun hle => hfirst fun x hx => ?_
          rcases List.mem_append.mp hx with hx | hx
          · exact Nat.le_trans (Nat.le_of_lt (hbefore x hx)) hle
          · rcases List.mem_cons.mp hx with rfl | hx
            · exact hle
            · exact Nat.le_trans (hafter x hx) hle
        intro x hx
        rcases List.mem_cons.mp hx with rfl | hx
        · exact hlt
        · exact hbefore x hx

theorem furthest_append (before after : List Miss) :
    furthest (before ++ after) = max (furthest before) (furthest after) := by
  induction before with
  | nil => exact (Nat.zero_max _).symm
  | cons m before ih => rw [List.cons_append, furthest, furthest, ih, Nat.max_assoc]

theorem furthest_le {misses : List Miss} {bound : Nat} (h : ∀ m ∈ misses, m.offset ≤ bound) :
    furthest misses ≤ bound := by
  induction misses with
  | nil => exact Nat.zero_le _
  | cons m misses ih =>
      exact Nat.max_le.mpr ⟨h m List.mem_cons_self, ih fun x hx => h x (List.mem_cons_of_mem _ hx)⟩

theorem IsFirstFurthest.furthest_eq {misses : List Miss} {m : Miss}
    (h : IsFirstFurthest misses m) : furthest misses = m.offset := by
  obtain ⟨before, after, rfl, hbefore, hafter⟩ := h
  have hle := furthest_le fun x hx => Nat.le_of_lt (hbefore x hx)
  have hge := furthest_le hafter
  rw [furthest_append, furthest]
  omega

end Miss

namespace Matching

/-! ## The tries of a match in order -/

section Tries

variable (step : Pattern → State σ → Outcome σ)

/-- What is tried when patterns are matched one after the other. -/
def triesOfSequence : List Pattern → State σ → List (Pattern × State σ)
  | [], _ => []
  | item :: items, st =>
      (item, st) ::
        match step item st with
        | ⟨.matched, next⟩ => triesOfSequence items next
        | _ => []

/-- What is tried when patterns are alternatives. -/
def triesOfChoice (observer : Observer σ) (origin : State σ) :
    List Pattern → State σ → List (Pattern × State σ)
  | [], _ => []
  | item :: items, st =>
      (item, st) ::
        match step item st with
        | ⟨.failed, next⟩ => triesOfChoice observer origin items (next.returnTo observer origin)
        | _ => []

/-- What is tried when a body is repeated, at most `rounds` times. -/
def triesOfRounds (body : Pattern) : (rounds : Nat) → State σ → List (Pattern × State σ)
  | 0, _ => []
  | rounds + 1, st =>
      (body, st) ::
        match step body st with
        | ⟨.matched, next⟩ => triesOfRounds body rounds next
        | _ => []

/-- What is tried when characters are passed until `stop` matches. -/
def triesOfSkip (size : Nat) (stop : Pattern) :
    (rounds : Nat) → State σ → List (Pattern × State σ)
  | 0, _ => []
  | rounds + 1, st =>
      (stop, st) ::
        match step stop st with
        | ⟨.failed, next⟩ =>
            if size ≤ next.offset then [] else triesOfSkip size stop rounds (next.advance 1)
        | _ => []

/-- What is tried when a body is repeated until `stop` matches. -/
def triesOfUntil (stop body : Pattern) : (rounds : Nat) → State σ → List (Pattern × State σ)
  | 0, _ => []
  | rounds + 1, st =>
      (stop, st) ::
        match step stop st with
        | ⟨.failed, next⟩ =>
            (body, next) ::
              match step body next with
              | ⟨.matched, later⟩ => triesOfUntil stop body rounds later
              | _ => []
        | _ => []

end Tries

/-- What a pattern tries, one level below it, in order and each from the state where it is
tried. -/
def tries (setting : Setting σ) (depth : Nat) (p : Pattern) (st : State σ) :
    List (Pattern × State σ) :=
  let step := run setting depth
  match p with
  | .terminal _ => []
  | .seq items => triesOfSequence step items st
  | .choice items => triesOfChoice step setting.observer st items st
  | .star _ body => triesOfRounds step body (roundLimit setting.text) st
  | .plus _ body => triesOfRounds step body (roundLimit setting.text + 1) st
  | .opt body => triesOfRounds step body 1 st
  | .atMost count body => triesOfRounds step body count.toNat st
  | .lookahead _ body => [(body, st.enterLookahead)]
  | .skipTo stop => triesOfSkip step setting.text.size stop (roundLimit setting.text) st
  | .repeatUntil _ stop body => triesOfUntil step stop body (roundLimit setting.text) st
  | .must body => [(body, st)]
  | .rule name =>
      match setting.rule? name with
      | some rule => [(rule.body, st.enter rule)]
      | none => []
  | .ref site name => if setting.isLinked site name then [(.rule name, st)] else []

/-- The misses of a match, in the order in which they happen.  Terminals only count outside
every lookahead. -/
def misses (setting : Setting σ) : (depth : Nat) → Pattern → State σ → List Miss
  | 0, _, _ => []
  | depth + 1, p, st =>
      let inner := (tries setting depth p st).flatMap fun tried =>
        misses setting depth tried.1 tried.2
      match p with
      | .terminal t => if t.scan setting.text st.offset = .miss then [⟨p, st.offset, []⟩] else []
      | .lookahead .. => inner.filter fun m => !m.isTerminal
      | .must body =>
          inner ++
            if (run setting depth body st).verdict = .failed then [⟨p, st.offset, []⟩] else []
      | .rule name =>
          match setting.rule? name with
          | some rule => inner.map (Miss.within rule.name)
          | none => []
      | _ => inner

end Matching

namespace State

/-- The furthest failure that a state remembers, with the rules around it, outermost first. -/
def kept (st : State σ) : Nat × List String := (st.furthest, st.furthestStack.reverse)

@[simp]
theorem kept_advance (st : State σ) (count : Nat) : (st.advance count).kept = st.kept := rfl

@[simp]
theorem kept_returnTo (st : State σ) (observer : Observer σ) (origin : State σ) :
    (st.returnTo observer origin).kept = st.kept := rfl

@[simp]
theorem kept_enter (st : State σ) (rule : Rule) : (st.enter rule).kept = st.kept := rfl

@[simp]
theorem kept_leave (st : State σ) (rule : Rule) : (st.leave rule).kept = st.kept := rfl

@[simp]
theorem kept_enterLookahead (st : State σ) : st.enterLookahead.kept = st.kept := rfl

@[simp]
theorem kept_leaveLookahead (st : State σ) : st.leaveLookahead.kept = st.kept := rfl

@[simp]
theorem kept_announce (st : State σ) (observer : Observer σ) (rule : Rule) (begin : Nat) :
    (st.announce observer rule begin).kept = st.kept := by
  rw [announce]
  split
  · split <;> rfl
  · rfl

end State

namespace Matching

/-! ## From one try to the next -/

/-- The tries of a match that began at `origin`, from the state `st` on: each fits, begins inside
what was around the origin, and remembers what the one before it left.  The match ends with what
the last of them left, and where it stops for a fault, the last try has stopped for it. -/
inductive Leads (Fit : Pattern → Prop) (step : Pattern → State σ → Outcome σ) (origin : State σ) :
    State σ → List (Pattern × State σ) → Outcome σ → Prop
  | done {st : State σ} {outcome : Outcome σ} (kept : outcome.state.kept = st.kept)
      (clean : ∀ fault, outcome.verdict ≠ .stopped (.fault fault)) :
      Leads Fit step origin st [] outcome
  | stops {st s last : State σ} {q : Pattern} {stop : Stop} (fit : Fit q) (around : origin.Around s)
      (kept : s.kept = st.kept) (here : step q s = ⟨.stopped stop, last⟩) :
      Leads Fit step origin st [(q, s)] ⟨.stopped stop, last⟩
  | next {st s next : State σ} {q : Pattern} {verdict : Verdict}
      {others : List (Pattern × State σ)} {outcome : Outcome σ} (fit : Fit q)
      (around : origin.Around s) (kept : s.kept = st.kept) (here : step q s = ⟨verdict, next⟩)
      (goesOn : ∀ stop, verdict ≠ .stopped stop)
      (later : Leads Fit step origin next others outcome) :
      Leads Fit step origin st ((q, s) :: others) outcome

section Leads

variable {Fit : Pattern → Prop} {step : Pattern → State σ → Outcome σ} {origin st s : State σ}
  {observer : Observer σ}

/-- What is left behind may change in anything but what is remembered. -/
theorem Leads.of_kept {tried : List (Pattern × State σ)} {outcome : Outcome σ}
    (h : Leads Fit step origin s tried outcome) (hkept : s.kept = st.kept) :
    Leads Fit step origin st tried outcome := by
  cases h with
  | done kept clean => exact .done (kept.trans hkept) clean
  | stops fit around kept here => exact .stops fit around (kept.trans hkept) here
  | next fit around kept here goesOn later =>
      exact .next fit around (kept.trans hkept) here goesOn later

theorem leads_sequence (hstep : ∀ p, Framing (step p)) {first : State σ} (items : List Pattern)
    (hfit : ∀ q ∈ items, Fit q) (haround : origin.Around st) :
    Leads Fit step origin st (triesOfSequence step items st)
      (sequence observer step first items st) := by
  induction items generalizing st with
  | nil => exact .done rfl (by rintro _ ⟨⟩)
  | cons item items ih =>
      have hitem := (hstep item st).around
      rw [triesOfSequence, sequence]
      rcases hhere : step item st with ⟨verdict, next⟩
      rw [hhere] at hitem
      cases verdict with
      | matched =>
          refine .next (hfit item List.mem_cons_self) haround rfl hhere (by simp) ?_
          exact ih (fun q hq => hfit q (List.mem_cons_of_mem _ hq)) (haround.trans hitem)
      | failed =>
          exact .next (hfit item List.mem_cons_self) haround rfl hhere (by simp)
            (.done rfl (by simp))
      | stopped stop => exact .stops (hfit item List.mem_cons_self) haround rfl hhere

theorem leads_choice (hstep : ∀ p, Framing (step p)) (items : List Pattern)
    (hfit : ∀ q ∈ items, Fit q) (haround : origin.Around st) :
    Leads Fit step origin st (triesOfChoice step observer origin items st)
      (choice observer step origin items st) := by
  induction items generalizing st with
  | nil => exact .done rfl (by rintro _ ⟨⟩)
  | cons item items ih =>
      have hitem := (hstep item st).around
      rw [triesOfChoice, choice]
      rcases hhere : step item st with ⟨verdict, next⟩
      rw [hhere] at hitem
      cases verdict with
      | matched =>
          exact .next (hfit item List.mem_cons_self) haround rfl hhere (by simp)
            (.done rfl (by simp))
      | failed =>
          refine .next (hfit item List.mem_cons_self) haround rfl hhere (by simp) ?_
          exact (ih (fun q hq => hfit q (List.mem_cons_of_mem _ hq))
            ((haround.trans hitem).returnTo observer origin)).of_kept rfl
      | stopped stop => exact .stops (hfit item List.mem_cons_self) haround rfl hhere

variable {body stop : Pattern}

theorem leads_looped {spent : Verdict} (hspent : ∀ fault, spent ≠ .stopped (.fault fault))
    (hbody : Framing (step body)) (hfit : Fit body) (rounds : Nat) (haround : origin.Around st) :
    Leads Fit step origin st (triesOfRounds step body rounds st)
      (looped observer spent (step body) rounds st) := by
  refine looped_induction
    (P := fun rounds st outcome => origin.Around st →
      Leads Fit step origin st (triesOfRounds step body rounds st) outcome)
    ?spent ?matched ?failed ?stopped rounds st haround
  case spent => exact fun _ _ => .done rfl hspent
  case matched =>
    intro _ st _ _ hhere ih haround
    have hround := (hbody st).around
    rw [hhere] at hround
    rw [triesOfRounds, hhere]
    exact .next hfit haround rfl hhere (by simp) (ih (haround.trans hround))
  case failed =>
    intro _ st _ hhere haround
    rw [triesOfRounds, hhere]
    exact .next hfit haround rfl hhere (by simp) (.done rfl (by simp))
  case stopped =>
    intro _ st _ _ hhere haround
    rw [triesOfRounds, hhere]
    exact .stops hfit haround rfl hhere

/-- A skip whose stop never fails at the end of the text notes no failure of its own. -/
theorem leads_skipped {size : Nat} (hstop : Framing (step stop)) (hfit : Fit stop)
    (hends : ∀ s, size ≤ s.offset → (step stop s).verdict ≠ .failed) {first : State σ}
    (rounds : Nat) (haround : origin.Around st) :
    Leads Fit step origin st (triesOfSkip step size stop rounds st)
      (skipped observer size (step stop) first rounds st) := by
  induction rounds generalizing st with
  | zero => exact .done rfl (by rintro _ ⟨⟩)
  | succ rounds ih =>
      have hframes := hstop st
      rw [triesOfSkip, skipped]
      rcases hhere : step stop st with ⟨verdict, next⟩
      rw [hhere] at hframes
      cases hframes with
      | matched around _ =>
          exact .next hfit haround rfl hhere (by simp) (.done rfl (by simp))
      | failed around offset_eq _ =>
          refine .next hfit haround rfl hhere (by simp) ?_
          dsimp only
          split
          next hend => exact absurd (by rw [hhere]) (hends st (offset_eq ▸ hend))
          next => exact (ih ((haround.trans around).advance 1)).of_kept rfl
      | stopped stop around => exact .stops hfit haround rfl hhere

theorem leads_repeatedUntil (hstop : Framing (step stop)) (hbody : Framing (step body))
    (hfitStop : Fit stop) (hfit : Fit body) {first : State σ} (rounds : Nat)
    (haround : origin.Around st) :
    Leads Fit step origin st (triesOfUntil step stop body rounds st)
      (repeatedUntil observer (step stop) (step body) first rounds st) := by
  induction rounds generalizing st with
  | zero => exact .done rfl (by rintro _ ⟨⟩)
  | succ rounds ih =>
      have hthere := (hstop st).around
      rw [triesOfUntil, repeatedUntil]
      rcases hhere : step stop st with ⟨verdict, next⟩
      rw [hhere] at hthere
      cases verdict with
      | matched =>
          exact .next hfitStop haround rfl hhere (by simp) (.done rfl (by simp))
      | stopped stop => exact .stops hfitStop haround rfl hhere
      | failed =>
          have hround := (hbody next).around
          refine .next hfitStop haround rfl hhere (by simp) ?_
          dsimp only
          rcases hlater : step body next with ⟨verdict, later⟩
          rw [hlater] at hround
          cases verdict with
          | matched =>
              refine .next hfit (haround.trans hthere) rfl hlater (by simp) ?_
              exact ih ((haround.trans hthere).trans hround)
          | failed =>
              exact .next hfit (haround.trans hthere) rfl hlater (by simp) (.done rfl (by simp))
          | stopped stop => exact .stops hfit (haround.trans hthere) rfl hlater

end Leads

/-- A try that is handed on as it is. -/
theorem leads_only {Fit : Pattern → Prop} {step : Pattern → State σ → Outcome σ}
    {origin s : State σ} {q : Pattern} (hfit : Fit q) (haround : origin.Around s) :
    Leads Fit step origin s [(q, s)] (step q s) := by
  rcases hhere : step q s with ⟨verdict, last⟩
  cases verdict with
  | matched => exact .next hfit haround rfl hhere nofun (.done rfl nofun)
  | failed => exact .next hfit haround rfl hhere nofun (.done rfl nofun)
  | stopped stop => exact .stops hfit haround rfl hhere

end Matching

namespace Pattern

/-- Whether the pattern is no skip, or one that ends with the line or the text. -/
def skipsLine : Pattern → Bool
  | skipTo (.terminal (.endOfLine true)) => true
  | skipTo _ => false
  | _ => true

/-- Whether all skips inside the pattern end with the line or the text. -/
def SkipsLines (p : Pattern) : Prop := ∀ q ∈ p.subpatterns, q.skipsLine = true

theorem SkipsLines.of_mem_parts {p q : Pattern} (hp : p.SkipsLines) (hq : q ∈ p.parts) :
    q.SkipsLines :=
  fun r hr => hp r (mem_subpatterns.mpr (.inr ⟨q, hq, hr⟩))

theorem SkipsLines.eq_of_skipTo {stop : Pattern} (h : (skipTo stop).SkipsLines) :
    stop = .terminal (.endOfLine true) := by
  have hskip := h _ (mem_subpatterns.mpr (.inl rfl))
  unfold skipsLine at hskip
  split at hskip
  next heq => exact (skipTo.inj heq)
  next => cases hskip
  next hother => exact absurd rfl (hother stop)

/-- Whether the pattern only passes on what its parts miss. -/
def isComposite : Pattern → Bool
  | terminal _ | lookahead .. | must _ | rule _ => false
  | _ => true

end Pattern

namespace Matching

variable {setting : Setting σ}

theorem misses_of_isComposite {p : Pattern} (hp : p.isComposite = true) (depth : Nat)
    (st : State σ) : misses setting (depth + 1) p st =
      (tries setting depth p st).flatMap fun tried => misses setting depth tried.1 tried.2 := by
  cases p <;> first | rfl | cases hp

/-- The end of the line is never missed at the end of the text. -/
theorem not_failed_endOfLine {depth : Nat} {s : State σ} (hs : setting.text.size ≤ s.offset) :
    (run setting depth (.terminal (.endOfLine true)) s).verdict ≠ .failed := by
  cases depth with
  | zero => exact nofun
  | succ depth => simp [run, terminal, Terminal.scan, hs]

/-- A pattern that only passes on what its parts miss leads through its tries. -/
theorem leads_run {p : Pattern} (hp : p.isComposite = true) (hfit : p.SkipsLines) (depth : Nat)
    (st : State σ) :
    Leads Pattern.SkipsLines (run setting depth) st st (tries setting depth p st)
      (run setting (depth + 1) p st) := by
  have hframing := framing_run setting depth
  have hst := State.Around.refl st
  cases p with
  | seq items => exact leads_sequence hframing items (fun _ => hfit.of_mem_parts) hst
  | choice items => exact leads_choice hframing items (fun _ => hfit.of_mem_parts) hst
  | star site body =>
      rw [run, repeated_eq_looped]
      exact leads_looped (by simp) (hframing body) (hfit.of_mem_parts List.mem_cons_self) _ hst
  | plus site body =>
      have hbody := hfit.of_mem_parts List.mem_cons_self
      have haround := (hframing body st).around
      simp only [run, tries, triesOfRounds]
      rcases hhere : run setting depth body st with ⟨verdict, next⟩
      rw [hhere] at haround
      cases verdict with
      | matched =>
          dsimp only
          rw [repeated_eq_looped]
          refine .next hbody hst rfl hhere (by simp) ?_
          exact leads_looped (by simp) (hframing body) hbody _ haround
      | failed => exact .next hbody hst rfl hhere (by simp) (.done rfl (by simp))
      | stopped stop => exact .stops hbody hst rfl hhere
  | opt body =>
      rw [run, repeatedAtMost_eq_looped]
      exact leads_looped (by simp) (hframing body) (hfit.of_mem_parts List.mem_cons_self) _ hst
  | atMost count body =>
      rw [run, repeatedAtMost_eq_looped]
      exact leads_looped (by simp) (hframing body) (hfit.of_mem_parts List.mem_cons_self) _ hst
  | skipTo stop =>
      have hstop := hfit.of_mem_parts List.mem_cons_self
      obtain rfl := hfit.eq_of_skipTo
      exact leads_skipped (hframing _) hstop (fun _ => not_failed_endOfLine) _ hst
  | repeatUntil site stop body =>
      exact leads_repeatedUntil (hframing stop) (hframing body)
        (hfit.of_mem_parts List.mem_cons_self)
        (hfit.of_mem_parts (List.mem_cons_of_mem _ List.mem_cons_self)) _ hst
  | ref site name =>
      have hrule : (Pattern.rule name).SkipsLines := by
        intro q hq
        rcases Pattern.mem_subpatterns.mp hq with rfl | ⟨part, hpart, -⟩
        · rfl
        · cases hpart
      simp only [run, tries]
      split
      · exact leads_only hrule hst
      · exact .done rfl (by rintro _ ⟨⟩)
  | terminal t => cases hp
  | lookahead negated body => cases hp
  | must body => cases hp
  | rule name => cases hp

end Matching

end CartLua
