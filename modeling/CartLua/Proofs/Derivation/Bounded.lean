import CartLua.Proofs.Grammar.Sound
import CartLua.Proofs.Matching.Observers

/-!
# Derivations of a bounded depth

The matcher allows only so many patterns to be active at the same time.  A derivation of a
bounded depth is one that stays within such a limit, and the matcher is stopped for depth
just when there is none.  This holds whatever observer is attached.
-/

namespace CartLua

/-- What a pattern of a grammar makes of a text, with at most `n` patterns active at the
same time. -/
inductive DerivesIn (g : Grammar) : (n : Nat) → Pattern → List Char → Answer → Prop
  | terminal {n : Nat} (t : Terminal) (s : List Char) :
      DerivesIn g (n + 1) (.terminal t) s (t.answer s)
  | seqNil {n : Nat} (s : List Char) : DerivesIn g (n + 1) (.seq []) s (.matched [] s)
  | seqCons {n : Nat} {item : Pattern} {items : List Pattern} {s rest : List Char}
      {parts : List Tree} {a : Answer} (first : DerivesIn g n item s (.matched parts rest))
      (others : DerivesIn g (n + 1) (.seq items) rest a) :
      DerivesIn g (n + 1) (.seq (item :: items)) s (a.after parts)
  | seqStop {n : Nat} {item : Pattern} {items : List Pattern} {s : List Char} {a : Answer}
      (first : DerivesIn g n item s a) (stops : ¬ a.IsMatch) :
      DerivesIn g (n + 1) (.seq (item :: items)) s a
  | choiceNil {n : Nat} (s : List Char) : DerivesIn g (n + 1) (.choice []) s .failed
  | choiceHere {n : Nat} {item : Pattern} {items : List Pattern} {s : List Char} {a : Answer}
      (first : DerivesIn g n item s a) (taken : a ≠ .failed) :
      DerivesIn g (n + 1) (.choice (item :: items)) s a
  | choiceNext {n : Nat} {item : Pattern} {items : List Pattern} {s : List Char} {a : Answer}
      (first : DerivesIn g n item s .failed) (others : DerivesIn g (n + 1) (.choice items) s a) :
      DerivesIn g (n + 1) (.choice (item :: items)) s a
  | starMore {n : Nat} {site : Site} {body : Pattern} {s rest : List Char} {parts : List Tree}
      {a : Answer} (round : DerivesIn g n body s (.matched parts rest))
      (others : DerivesIn g (n + 1) (.star site body) rest a) :
      DerivesIn g (n + 1) (.star site body) s (a.after parts)
  | starStop {n : Nat} {site : Site} {body : Pattern} {s : List Char} {a : Answer}
      (round : DerivesIn g n body s a) (stops : ¬ a.IsMatch) :
      DerivesIn g (n + 1) (.star site body) s (a.orNothing s)
  | plusMore {n : Nat} {site : Site} {body : Pattern} {s rest : List Char} {parts : List Tree}
      {a : Answer} (round : DerivesIn g n body s (.matched parts rest))
      (others : DerivesIn g (n + 1) (.star site body) rest a) :
      DerivesIn g (n + 1) (.plus site body) s (a.after parts)
  | plusStop {n : Nat} {site : Site} {body : Pattern} {s : List Char} {a : Answer}
      (round : DerivesIn g n body s a) (stops : ¬ a.IsMatch) :
      DerivesIn g (n + 1) (.plus site body) s a
  | opt {n : Nat} {body : Pattern} {s : List Char} {a : Answer} (inner : DerivesIn g n body s a) :
      DerivesIn g (n + 1) (.opt body) s (a.orNothing s)
  | atMostZero {n : Nat} {count : Int} {body : Pattern} (s : List Char)
      (done : count.toNat = 0) : DerivesIn g (n + 1) (.atMost count body) s (.matched [] s)
  | atMostMore {n : Nat} {count : Int} {body : Pattern} {s rest : List Char} {parts : List Tree}
      {a : Answer} (left : count.toNat ≠ 0) (round : DerivesIn g n body s (.matched parts rest))
      (others : DerivesIn g (n + 1) (.atMost (count - 1) body) rest a) :
      DerivesIn g (n + 1) (.atMost count body) s (a.after parts)
  | atMostStop {n : Nat} {count : Int} {body : Pattern} {s : List Char} {a : Answer}
      (left : count.toNat ≠ 0) (round : DerivesIn g n body s a) (stops : ¬ a.IsMatch) :
      DerivesIn g (n + 1) (.atMost count body) s (a.orNothing s)
  | lookahead {n : Nat} {negated : Bool} {body : Pattern} {s : List Char} {a : Answer}
      (inner : DerivesIn g n body s a) :
      DerivesIn g (n + 1) (.lookahead negated body) s (a.looked negated s)
  | skipHere {n : Nat} {stop : Pattern} {s : List Char} {a : Answer}
      (here : DerivesIn g n stop s a) (taken : a ≠ .failed) : DerivesIn g (n + 1) (.skipTo stop) s a
  | skipPass {n : Nat} {stop : Pattern} {c : Char} {s : List Char} {a : Answer}
      (here : DerivesIn g n stop (c :: s) .failed)
      (others : DerivesIn g (n + 1) (.skipTo stop) s a) :
      DerivesIn g (n + 1) (.skipTo stop) (c :: s) (a.after [.chars [c]])
  | skipEnd {n : Nat} {stop : Pattern} (here : DerivesIn g n stop [] .failed) :
      DerivesIn g (n + 1) (.skipTo stop) [] .failed
  | untilHere {n : Nat} {site : Site} {stop body : Pattern} {s : List Char} {a : Answer}
      (here : DerivesIn g n stop s a) (taken : a ≠ .failed) :
      DerivesIn g (n + 1) (.repeatUntil site stop body) s a
  | untilMore {n : Nat} {site : Site} {stop body : Pattern} {s rest : List Char}
      {parts : List Tree} {a : Answer} (here : DerivesIn g n stop s .failed)
      (round : DerivesIn g n body s (.matched parts rest))
      (others : DerivesIn g (n + 1) (.repeatUntil site stop body) rest a) :
      DerivesIn g (n + 1) (.repeatUntil site stop body) s (a.after parts)
  | untilStop {n : Nat} {site : Site} {stop body : Pattern} {s : List Char} {a : Answer}
      (here : DerivesIn g n stop s .failed) (round : DerivesIn g n body s a)
      (stops : ¬ a.IsMatch) : DerivesIn g (n + 1) (.repeatUntil site stop body) s a
  | must {n : Nat} {body : Pattern} {s : List Char} {a : Answer} (inner : DerivesIn g n body s a) :
      DerivesIn g (n + 1) (.must body) s a.committed
  | rule {n : Nat} {name : String} {rule : Rule} {s : List Char} {a : Answer}
      (found : g.rule? name = some rule) (inner : DerivesIn g n rule.body s a) :
      DerivesIn g (n + 1) (.rule name) s (a.named rule)
  | ref {n : Nat} {site : Site} {name : String} {s : List Char} {a : Answer}
      (linked : g.isLinked site name = true) (inner : DerivesIn g n (.rule name) s a) :
      DerivesIn g (n + 1) (.ref site name) s a

namespace DerivesIn

variable {g : Grammar} {n : Nat} {p : Pattern} {s : List Char}

/-- A derivation of a bounded depth is a derivation. -/
theorem erase {a : Answer} (h : DerivesIn g n p s a) : Derives g p s a := by
  induction h with
  | terminal t s => exact .terminal t s
  | seqNil s => exact .seqNil s
  | seqCons _ _ ihfirst ihothers => exact .seqCons ihfirst ihothers
  | seqStop _ stops ihfirst => exact .seqStop ihfirst stops
  | choiceNil s => exact .choiceNil s
  | choiceHere _ taken ihfirst => exact .choiceHere ihfirst taken
  | choiceNext _ _ ihfirst ihothers => exact .choiceNext ihfirst ihothers
  | starMore _ _ ihround ihothers => exact .starMore ihround ihothers
  | starStop _ stops ihround => exact .starStop ihround stops
  | plusMore _ _ ihround ihothers => exact .plusMore ihround ihothers
  | plusStop _ stops ihround => exact .plusStop ihround stops
  | opt _ ihinner => exact .opt ihinner
  | atMostZero s done => exact .atMostZero s done
  | atMostMore left _ _ ihround ihothers => exact .atMostMore left ihround ihothers
  | atMostStop left _ stops ihround => exact .atMostStop left ihround stops
  | lookahead _ ihinner => exact .lookahead ihinner
  | skipHere _ taken ihhere => exact .skipHere ihhere taken
  | skipPass _ _ ihhere ihothers => exact .skipPass ihhere ihothers
  | skipEnd _ ihhere => exact .skipEnd ihhere
  | untilHere _ taken ihhere => exact .untilHere ihhere taken
  | untilMore _ _ _ ihhere ihround ihothers => exact .untilMore ihhere ihround ihothers
  | untilStop _ _ stops ihhere ihround => exact .untilStop ihhere ihround stops
  | must _ ihinner => exact .must ihinner
  | rule found _ ihinner => exact .rule found ihinner
  | ref linked _ ihinner => exact .ref linked ihinner

/-- Whatever the depth, a pattern makes only one thing of a text. -/
theorem eq_of {m : Nat} {a b : Answer} (ha : DerivesIn g n p s a) (hb : DerivesIn g m p s b) :
    a = b :=
  ha.erase.deterministic hb.erase

/-- After a match, what follows in a sequence is tried. -/
theorem others_of_seq {m : Nat} {item : Pattern} {items : List Pattern} {rest : List Char}
    {parts : List Tree} {a : Answer} (h : DerivesIn g (n + 1) (.seq (item :: items)) s a)
    (hfirst : DerivesIn g m item s (.matched parts rest)) :
    ∃ b, DerivesIn g (n + 1) (.seq items) rest b := by
  cases h with
  | seqCons first others =>
      cases first.eq_of hfirst
      exact ⟨_, others⟩
  | seqStop first stops =>
      cases first.eq_of hfirst
      exact absurd trivial stops

end DerivesIn

variable {σ : Type}

/-- Whether an outcome is what derivations of a bounded depth say of a pattern at an offset.
A failure leaves the cursor at `back`. -/
def Answers (g : Grammar) (text : Array Char) (n : Nat) (p : Pattern) (offset back : Nat) :
    Outcome σ → Prop
  | ⟨.matched, last⟩ => last.offset ≤ text.size ∧
      ∃ parts, DerivesIn g n p (Text.rest text offset) (.matched parts (Text.rest text last.offset))
  | ⟨.failed, last⟩ => last.offset = back ∧ DerivesIn g n p (Text.rest text offset) .failed
  | ⟨.stopped stop, _⟩ =>
      stop = .tooDeep ∧ (∀ a, ¬DerivesIn g n p (Text.rest text offset) a) ∨
        (∃ fault, stop = .fault fault) ∧ DerivesIn g n p (Text.rest text offset) .broken

namespace Answers

variable {g : Grammar} {text : Array Char} {n m : Nat} {p q : Pattern}
  {offset next back back' : Nat} {outcome : Outcome σ}

/-- What follows some parts of a pattern decides about the whole pattern. -/
theorem after {parts : List Tree} (h : Answers g text m q next back outcome)
    (hwhole : ∀ a, DerivesIn g m q (Text.rest text next) a →
      DerivesIn g n p (Text.rest text offset) (a.after parts))
    (hpart : ∀ a, DerivesIn g n p (Text.rest text offset) a →
      ∃ b, DerivesIn g m q (Text.rest text next) b) :
    Answers g text n p offset back outcome := by
  obtain ⟨verdict, last⟩ := outcome
  cases verdict with
  | matched =>
      obtain ⟨hsize, more, hmore⟩ := h
      exact ⟨hsize, parts ++ more, hwhole _ hmore⟩
  | failed => exact ⟨h.1, hwhole _ h.2⟩
  | stopped stop =>
      rcases h with ⟨hdeep, hnone⟩ | ⟨hfault, hbroken⟩
      · refine .inl ⟨hdeep, fun a ha => ?_⟩
        obtain ⟨b, hb⟩ := hpart a ha
        exact hnone b hb
      · exact .inr ⟨hfault, hwhole _ hbroken⟩

/-- A pattern is stopped by what stops a part of it that is tried. -/
theorem of_stopped {stop : Stop} {last last' : State σ}
    (h : Answers g text m q next back ⟨.stopped stop, last⟩)
    (hwhole : DerivesIn g m q (Text.rest text next) .broken →
      DerivesIn g n p (Text.rest text offset) .broken)
    (hpart : ∀ a, DerivesIn g n p (Text.rest text offset) a →
      ∃ b, DerivesIn g m q (Text.rest text next) b) :
    Answers g text n p offset back' ⟨.stopped stop, last'⟩ := by
  rcases h with ⟨hdeep, hnone⟩ | ⟨hfault, hbroken⟩
  · refine .inl ⟨hdeep, fun a ha => ?_⟩
    obtain ⟨b, hb⟩ := hpart a ha
    exact hnone b hb
  · exact .inr ⟨hfault, hwhole hbroken⟩

/-- A round that takes something moves the cursor on. -/
theorem offset_lt (hg : g.Sound) (hp : p.nullable hg.traits.nullable = false) {parts : List Tree}
    (hoffset : offset ≤ text.size) (hnext : next ≤ text.size)
    (h : DerivesIn g n p (Text.rest text offset) (.matched parts (Text.rest text next))) :
    offset < next := by
  have hmatch := h.erase.toMatch
  have hlength := congrArg List.length hmatch.text_eq
  have htaken := List.length_pos_iff.mpr (hmatch.text_ne_nil hg hp)
  rw [List.length_append, Text.length_rest, Text.length_rest] at hlength
  omega

theorem of_terminal {t : Terminal} (ht : t.Bounded) {st : State σ}
    (hst : st.offset ≤ text.size) :
    Answers g text (n + 1) (.terminal t) st.offset st.offset (Matching.terminal text t st) := by
  have hderives := DerivesIn.terminal (g := g) (n := n) t (Text.rest text st.offset)
  rw [Terminal.answer, ← t.scan_eq_scan_rest hst] at hderives
  rw [Matching.terminal]
  cases htake : t.scan text st.offset with
  | take count =>
      rw [htake] at hderives
      refine ⟨Terminal.scan_take_le ht hst htake, [.chars ((Text.rest text st.offset).take count)],
        ?_⟩
      rw [State.offset_advance, Text.rest_add]
      exact hderives
  | stay =>
      rw [htake] at hderives
      exact ⟨hst, [], hderives⟩
  | miss =>
      rw [htake] at hderives
      exact ⟨st.offset_noteFailure, hderives⟩
  | unclosed level =>
      rw [htake] at hderives
      exact .inr ⟨⟨_, rfl⟩, hderives⟩

/-- Whether a step answers for a pattern wherever the cursor is. -/
def At (g : Grammar) (text : Array Char) (n : Nat) (p : Pattern)
    (step : State σ → Outcome σ) : Prop :=
  ∀ st : State σ, st.offset ≤ text.size → Answers g text n p st.offset st.offset (step st)

variable {observer : Observer σ}

theorem sequence {step : Pattern → State σ → Outcome σ} {origin : State σ} {items : List Pattern}
    (hstep : ∀ item ∈ items, At g text n item (step item)) {st : State σ}
    (hst : st.offset ≤ text.size) :
    Answers g text (n + 1) (.seq items) st.offset origin.offset
      (Matching.sequence observer step origin items st) := by
  induction items generalizing st with
  | nil => exact ⟨hst, [], .seqNil _⟩
  | cons item items ih =>
      have hfirst := hstep item List.mem_cons_self st hst
      have htried : ∀ a, DerivesIn g (n + 1) (.seq (item :: items)) (Text.rest text st.offset) a →
          ∃ b, DerivesIn g n item (Text.rest text st.offset) b := by
        rintro a (_ | _ | ⟨first, _⟩ | ⟨first, _⟩)
        · exact ⟨_, first⟩
        · exact ⟨_, first⟩
      rw [Matching.sequence]
      rcases houtcome : step item st with ⟨verdict, next⟩
      rw [houtcome] at hfirst
      cases verdict with
      | matched =>
          obtain ⟨hsize, parts, hparts⟩ := hfirst
          exact (ih (fun other hother => hstep other (List.mem_cons_of_mem item hother))
            hsize).after (fun _ => .seqCons hparts) fun _ h => h.others_of_seq hparts
      | failed => exact ⟨rfl, .seqStop hfirst.2 id⟩
      | stopped stop => exact hfirst.of_stopped (fun h => .seqStop h id) htried

theorem choice {step : Pattern → State σ → Outcome σ} {origin : State σ} {items : List Pattern}
    (hstep : ∀ item ∈ items, At g text n item (step item)) (horigin : origin.offset ≤ text.size)
    {st : State σ} (hst : st.offset = origin.offset) :
    Answers g text (n + 1) (.choice items) origin.offset origin.offset
      (Matching.choice observer step origin items st) := by
  induction items generalizing st with
  | nil => exact ⟨hst, .choiceNil _⟩
  | cons item items ih =>
      have hfirst := hstep item List.mem_cons_self st (hst ▸ horigin)
      rw [hst] at hfirst
      rw [Matching.choice]
      rcases houtcome : step item st with ⟨verdict, next⟩
      rw [houtcome] at hfirst
      cases verdict with
      | matched =>
          obtain ⟨hsize, parts, hparts⟩ := hfirst
          exact ⟨hsize, parts, .choiceHere hparts (by simp)⟩
      | failed =>
          have hback : (next.returnTo observer origin).offset = origin.offset := rfl
          have hothers :=
            ih (fun other hother => hstep other (List.mem_cons_of_mem item hother)) hback
          have hwhole : ∀ a, DerivesIn g (n + 1) (.choice items) (Text.rest text origin.offset) a →
              DerivesIn g (n + 1) (.choice (item :: items)) (Text.rest text origin.offset)
                (a.after []) := by
            intro a ha
            rw [Answer.after_nil]
            exact .choiceNext hfirst.2 ha
          apply hothers.after hwhole
          · intro a ha
            cases ha with
            | choiceHere first taken => exact absurd (first.eq_of hfirst.2) taken
            | choiceNext _ others => exact ⟨_, others⟩
      | stopped stop =>
          apply hfirst.of_stopped fun h => .choiceHere h (by simp)
          intro a ha
          cases ha with
          | choiceHere first _ => exact ⟨_, first⟩
          | choiceNext first _ => exact ⟨_, first⟩

/-- A loop whose rounds take something, and of which there are enough. -/
theorem repeated (hg : g.Sound) {site : Site} (hp : p.nullable hg.traits.nullable = false)
    {body : State σ → Outcome σ} (hbody : At g text n p body) {rounds : Nat} {st : State σ}
    (hst : st.offset ≤ text.size) (hrounds : text.size < st.offset + rounds) :
    Answers g text (n + 1) (.star site p) st.offset back
      (Matching.repeated observer body rounds st) := by
  induction rounds generalizing st with
  | zero => omega
  | succ rounds ih =>
      have hround := hbody st hst
      have htried : ∀ a, DerivesIn g (n + 1) (.star site p) (Text.rest text st.offset) a →
          ∃ b, DerivesIn g n p (Text.rest text st.offset) b := by
        intro a ha
        cases ha with
        | starMore round _ => exact ⟨_, round⟩
        | starStop round _ => exact ⟨_, round⟩
      rw [Matching.repeated]
      rcases houtcome : body st with ⟨verdict, next⟩
      rw [houtcome] at hround
      cases verdict with
      | matched =>
          obtain ⟨hsize, parts, hparts⟩ := hround
          have hlt := offset_lt hg hp hst hsize hparts
          apply (ih hsize (by omega)).after fun _ => .starMore hparts
          intro a ha
          cases ha with
          | starMore round others =>
              cases round.eq_of hparts
              exact ⟨_, others⟩
          | starStop round stops =>
              cases round.eq_of hparts
              exact absurd trivial stops
      | failed => exact ⟨hst, [], .starStop hround.2 id⟩
      | stopped stop => exact hround.of_stopped (fun h => .starStop h id) htried

theorem repeatedAtMost {body : State σ → Outcome σ} (hbody : At g text n p body) {rounds : Nat}
    {count : Int} (hcount : count.toNat = rounds) {st : State σ} (hst : st.offset ≤ text.size) :
    Answers g text (n + 1) (.atMost count p) st.offset back
      (Matching.repeatedAtMost observer body rounds st) := by
  induction rounds generalizing count st with
  | zero => exact ⟨hst, [], .atMostZero _ hcount⟩
  | succ rounds ih =>
      have hleft : count.toNat ≠ 0 := by omega
      have hround := hbody st hst
      rw [Matching.repeatedAtMost]
      rcases houtcome : body st with ⟨verdict, next⟩
      rw [houtcome] at hround
      cases verdict with
      | matched =>
          obtain ⟨hsize, parts, hparts⟩ := hround
          have hcount' : (count - 1).toNat = rounds := by omega
          apply (ih hcount' hsize).after fun _ => .atMostMore hleft hparts
          intro a ha
          cases ha with
          | atMostZero _ done => exact absurd done hleft
          | atMostMore _ round others =>
              cases round.eq_of hparts
              exact ⟨_, others⟩
          | atMostStop _ round stops =>
              cases round.eq_of hparts
              exact absurd trivial stops
      | failed => exact ⟨hst, [], .atMostStop hleft hround.2 id⟩
      | stopped stop =>
          apply hround.of_stopped fun h => .atMostStop hleft h id
          intro a ha
          cases ha with
          | atMostZero _ done => exact absurd done hleft
          | atMostMore _ round _ => exact ⟨_, round⟩
          | atMostStop _ round _ => exact ⟨_, round⟩

theorem opt {body : State σ → Outcome σ} (hbody : At g text n p body) {st : State σ}
    (hst : st.offset ≤ text.size) :
    Answers g text (n + 1) (.opt p) st.offset back
      (Matching.repeatedAtMost observer body 1 st) := by
  have hround := hbody st hst
  rw [Matching.repeatedAtMost]
  rcases houtcome : body st with ⟨verdict, next⟩
  rw [houtcome] at hround
  cases verdict with
  | matched =>
      obtain ⟨hsize, parts, hparts⟩ := hround
      exact ⟨hsize, parts, .opt hparts⟩
  | failed => exact ⟨hst, [], .opt hround.2⟩
  | stopped stop =>
      apply hround.of_stopped fun h => .opt h
      intro a ha
      cases ha with
      | opt inner => exact ⟨_, inner⟩

theorem plus (hg : g.Sound) {site : Site} (hp : p.nullable hg.traits.nullable = false)
    {body : State σ → Outcome σ} (hbody : At g text n p body) {rounds : Nat} {st : State σ}
    (hst : st.offset ≤ text.size) (hrounds : text.size < st.offset + rounds) :
    Answers g text (n + 1) (.plus site p) st.offset st.offset
      (match body st with
      | ⟨.matched, st⟩ => Matching.repeated observer body rounds st
      | outcome => outcome) := by
  have hround := hbody st hst
  rcases houtcome : body st with ⟨verdict, next⟩
  rw [houtcome] at hround
  cases verdict with
  | matched =>
      obtain ⟨hsize, parts, hparts⟩ := hround
      have hlt := offset_lt hg hp hst hsize hparts
      apply (repeated hg hp hbody hsize (by omega)).after fun _ => .plusMore hparts
      intro a ha
      cases ha with
      | plusMore round others =>
          cases round.eq_of hparts
          exact ⟨_, others⟩
      | plusStop round stops =>
          cases round.eq_of hparts
          exact absurd trivial stops
  | failed => exact ⟨hround.1, .plusStop hround.2 id⟩
  | stopped _ =>
      apply hround.of_stopped fun h => .plusStop h id
      intro a ha
      cases ha with
      | plusMore round _ => exact ⟨_, round⟩
      | plusStop round _ => exact ⟨_, round⟩

theorem skipped {stop : State σ → Outcome σ} (hstop : At g text n p stop) {origin : State σ}
    {rounds : Nat} {st : State σ} (hst : st.offset ≤ text.size)
    (hrounds : text.size < st.offset + rounds) :
    Answers g text (n + 1) (.skipTo p) st.offset origin.offset
      (Matching.skipped observer text.size stop origin rounds st) := by
  induction rounds generalizing st with
  | zero => omega
  | succ rounds ih =>
      have hhere := hstop st hst
      rw [Matching.skipped]
      rcases houtcome : stop st with ⟨verdict, next⟩
      rw [houtcome] at hhere
      cases verdict with
      | matched =>
          obtain ⟨hsize, parts, hparts⟩ := hhere
          exact ⟨hsize, parts, .skipHere hparts (by simp)⟩
      | failed =>
          obtain ⟨hoffset, hfailed⟩ := hhere
          dsimp only
          split
          · have hleft : Text.rest text st.offset = [] := by
              rw [← List.length_eq_zero_iff, Text.length_rest]
              omega
            refine ⟨?_, ?_⟩
            · rw [State.offset_noteFailure, State.offset_returnTo]
            · rw [hleft] at hfailed ⊢
              exact .skipEnd hfailed
          · have hcount : (next.advance 1).offset ≤ text.size := by
              rw [State.offset_advance]
              omega
            obtain ⟨c, rest, hcons⟩ : ∃ c rest, Text.rest text st.offset = c :: rest := by
              apply List.exists_cons_of_length_pos
              rw [Text.length_rest]
              omega
            have hadvance : Text.rest text (next.advance 1).offset = rest := by
              rw [State.offset_advance, Text.rest_add, hoffset, hcons]
              rfl
            have hothers := ih hcount (by rw [State.offset_advance]; omega)
            apply hothers.after
            · intro a ha
              rw [hcons] at hfailed ⊢
              rw [hadvance] at ha
              exact .skipPass hfailed ha
            · intro a ha
              rw [hcons] at hfailed ha
              rw [hadvance]
              cases ha with
              | skipHere here taken => exact absurd (here.eq_of hfailed) taken
              | skipPass _ others => exact ⟨_, others⟩
      | stopped _ =>
          apply hhere.of_stopped fun h => .skipHere h (by simp)
          intro a ha
          generalize Text.rest text st.offset = s at ha
          cases ha with
          | skipHere here _ => exact ⟨_, here⟩
          | skipPass here _ => exact ⟨_, here⟩
          | skipEnd here => exact ⟨_, here⟩

theorem repeatedUntil (hg : g.Sound) {site : Site} (hq : q.nullable hg.traits.nullable = false)
    {stop body : State σ → Outcome σ} (hstop : At g text n p stop) (hbody : At g text n q body)
    {origin : State σ} {rounds : Nat} {st : State σ} (hst : st.offset ≤ text.size)
    (hrounds : text.size < st.offset + rounds) :
    Answers g text (n + 1) (.repeatUntil site p q) st.offset origin.offset
      (Matching.repeatedUntil observer stop body origin rounds st) := by
  induction rounds generalizing st with
  | zero => omega
  | succ rounds ih =>
      have hhere := hstop st hst
      rw [Matching.repeatedUntil]
      rcases houtcome : stop st with ⟨verdict, next⟩
      rw [houtcome] at hhere
      cases verdict with
      | matched =>
          obtain ⟨hsize, parts, hparts⟩ := hhere
          exact ⟨hsize, parts, .untilHere hparts (by simp)⟩
      | failed =>
          obtain ⟨hoffset, hfailed⟩ := hhere
          have hround := hbody next (hoffset ▸ hst)
          rw [hoffset] at hround
          dsimp only
          rcases hbodyOutcome : body next with ⟨verdict, later⟩
          rw [hbodyOutcome] at hround
          cases verdict with
          | matched =>
              obtain ⟨hsize, parts, hparts⟩ := hround
              have hlt := offset_lt hg hq hst hsize hparts
              apply (ih hsize (by omega)).after fun _ => .untilMore hfailed hparts
              intro a ha
              cases ha with
              | untilHere here taken => exact absurd (here.eq_of hfailed) taken
              | untilMore _ round others =>
                  cases round.eq_of hparts
                  exact ⟨_, others⟩
              | untilStop _ round stops =>
                  cases round.eq_of hparts
                  exact absurd trivial stops
          | failed => exact ⟨rfl, .untilStop hfailed hround.2 id⟩
          | stopped _ =>
              apply hround.of_stopped fun h => .untilStop hfailed h id
              intro a ha
              cases ha with
              | untilHere here taken => exact absurd (here.eq_of hfailed) taken
              | untilMore _ round _ => exact ⟨_, round⟩
              | untilStop _ round _ => exact ⟨_, round⟩
      | stopped _ =>
          apply hhere.of_stopped fun h => .untilHere h (by simp)
          intro a ha
          cases ha with
          | untilHere here _ => exact ⟨_, here⟩
          | untilMore here _ _ => exact ⟨_, here⟩
          | untilStop here _ _ => exact ⟨_, here⟩

theorem lookahead {negated : Bool} {body : State σ → Outcome σ} (hbody : At g text n p body)
    {st : State σ} (hst : st.offset ≤ text.size) :
    Answers g text (n + 1) (.lookahead negated p) st.offset st.offset
      (Matching.lookahead observer negated body st) := by
  have hinner := hbody st.enterLookahead hst
  rw [State.offset_enterLookahead] at hinner
  rw [Matching.lookahead]
  rcases houtcome : body st.enterLookahead with ⟨verdict, last⟩
  rw [houtcome] at hinner
  cases verdict with
  | matched =>
      obtain ⟨-, parts, hparts⟩ := hinner
      cases negated with
      | false => exact ⟨hst, [], .lookahead hparts⟩
      | true => exact ⟨rfl, .lookahead hparts⟩
  | failed =>
      cases negated with
      | false => exact ⟨rfl, .lookahead hinner.2⟩
      | true => exact ⟨hst, [], .lookahead hinner.2⟩
  | stopped _ =>
      apply hinner.of_stopped fun h => .lookahead h
      intro a ha
      cases ha with
      | lookahead inner => exact ⟨_, inner⟩

theorem committed {body : State σ → Outcome σ} (hbody : At g text n p body)
    (description : Unit → String) {st : State σ} (hst : st.offset ≤ text.size) :
    Answers g text (n + 1) (.must p) st.offset back (Matching.committed body description st) := by
  have hinner := hbody st hst
  rw [Matching.committed]
  rcases houtcome : body st with ⟨verdict, last⟩
  rw [houtcome] at hinner
  cases verdict with
  | matched =>
      obtain ⟨hsize, parts, hparts⟩ := hinner
      exact ⟨hsize, parts, .must hparts⟩
  | failed => exact .inr ⟨⟨_, rfl⟩, .must hinner.2⟩
  | stopped _ =>
      apply hinner.of_stopped fun h => .must h
      intro a ha
      cases ha with
      | must inner => exact ⟨_, inner⟩

theorem named {name : String} {rule : Rule} (hrule : g.rule? name = some rule)
    {body : State σ → Outcome σ} (hbody : At g text n rule.body body) {st : State σ}
    (hst : st.offset ≤ text.size) :
    Answers g text (n + 1) (.rule name) st.offset st.offset
      (Matching.named observer rule body st) := by
  have hinner := hbody (st.enter rule) hst
  rw [State.offset_enter] at hinner
  rw [Matching.named]
  rcases houtcome : body (st.enter rule) with ⟨verdict, last⟩
  rw [houtcome] at hinner
  cases verdict with
  | matched =>
      obtain ⟨hsize, parts, hparts⟩ := hinner
      refine ⟨?_, [.node rule parts], ?_⟩
      · rw [State.offset_announce]
        exact hsize
      · rw [State.offset_announce]
        exact .rule hrule hparts
  | failed => exact ⟨hinner.1, .rule hrule hinner.2⟩
  | stopped _ =>
      apply hinner.of_stopped fun h => .rule hrule h
      intro a ha
      cases ha with
      | rule found inner =>
          cases hrule.symm.trans found
          exact ⟨_, inner⟩

end Answers

/-- A match of a sound grammar ends as derivations of its depth say, and is stopped for
depth just when there is none. -/
theorem answers_run {g : Grammar} (hg : g.Sound) (text : Array Char) (observer : Observer σ)
    (n : Nat) {p : Pattern} (hp : p.sound hg.traits = true) :
    Answers.At g text n p
      (Matching.run ⟨text, g.rule?, g.isLinked, observer⟩ n p) := by
  induction n generalizing p with
  | zero => exact fun st _ => .inl ⟨rfl, fun a ha => nomatch ha⟩
  | succ n ih =>
      intro st hst
      have hrounds : text.size < st.offset + Matching.roundLimit text := by
        rw [Matching.roundLimit]
        omega
      cases p with
      | terminal t => exact .of_terminal (.of_bounded hp) hst
      | seq items =>
          exact .sequence (fun item hitem => ih (Pattern.sound_of_mem_inOrder hp hitem)) hst
      | choice items =>
          exact .choice (fun item hitem => ih (Pattern.sound_of_mem hp hitem)) hst rfl
      | star site body =>
          simp only [Pattern.sound, Bool.and_eq_true, Bool.not_eq_true'] at hp
          exact .repeated hg hp.1.1 (ih hp.2) hst hrounds
      | plus site body =>
          simp only [Pattern.sound, Bool.and_eq_true, Bool.not_eq_true'] at hp
          exact .plus hg hp.1.1 (ih hp.2) hst hrounds
      | opt body => exact .opt (ih (p := body) hp) hst
      | atMost count body =>
          simp only [Pattern.sound, Bool.and_eq_true] at hp
          exact .repeatedAtMost (ih hp.2) rfl hst
      | lookahead negated body =>
          simp only [Pattern.sound, Bool.and_eq_true] at hp
          exact .lookahead (ih hp.2) hst
      | skipTo stop => exact .skipped (ih (p := stop) hp) hst hrounds
      | repeatUntil site stop body =>
          simp only [Pattern.sound, Bool.and_eq_true, Bool.not_eq_true'] at hp
          exact .repeatedUntil hg hp.1.1.1 (ih hp.1.2) (ih hp.2) hst hrounds
      | must body => exact .committed (ih (p := body) hp) (fun _ => body.describe) hst
      | rule name =>
          obtain ⟨-, rule, hrule⟩ := hg.defined name hp
          simp only [Matching.run, hrule]
          exact .named hrule (ih (hg.sound rule (Grammar.mem_of_rule? hrule))) hst
      | ref site name =>
          simp only [Pattern.sound, Bool.and_eq_true, Option.isNone_iff_eq_none] at hp
          obtain ⟨rfl, hname⟩ := hp
          obtain ⟨hlinked, -⟩ := hg.defined name hname
          simp only [Matching.run, hlinked, if_true]
          have hinner := ih (p := .rule name) hname st hst
          rcases houtcome :
            Matching.run ⟨text, g.rule?, g.isLinked, observer⟩ n (.rule name) st with
            ⟨verdict, last⟩
          rw [houtcome] at hinner
          cases verdict with
          | matched =>
              obtain ⟨hsize, parts, hparts⟩ := hinner
              exact ⟨hsize, parts, .ref hlinked hparts⟩
          | failed => exact ⟨hinner.1, .ref hlinked hinner.2⟩
          | stopped _ =>
              apply hinner.of_stopped fun h => .ref hlinked h
              intro a ha
              cases ha with
              | ref _ inner => exact ⟨_, inner⟩

end CartLua
