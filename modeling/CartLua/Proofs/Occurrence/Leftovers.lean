import CartLua.Proofs.Derivation.Faithful
import CartLua.Proofs.Matching.Cursor
import CartLua.Proofs.Matching.Submatches

/-!
# What a failure leaves in the logs

When a match fails, the cursor returns to where it began, and everything recorded there or
later is dropped.  An anchored rule records from an anchor, and the anchor may lie before
the place to which the cursor returns.  What such a rule recorded is not dropped.

Nothing else stays behind: all that a failed match leaves in the logs begins at the
innermost anchor that was open when it began, before the cursor.  That such entries do stay is
shown by a grammar that passes its self-check.
-/

namespace CartLua

namespace OffsetLog

variable {α : Type} [Positioned α] {allowed permitted : Int → Prop} {a b c : OffsetLog α}

/-- Whether one log comes from another by recording entries at allowed offsets. -/
inductive Gains (allowed : Int → Prop) (log : OffsetLog α) : OffsetLog α → Prop
  | nothing : Gains allowed log log
  | entry {later : OffsetLog α} (gains : Gains allowed log later) (entry : α)
      (allowed_entry : allowed (Positioned.offset entry)) : Gains allowed log (later.record entry)

namespace Gains

theorem trans (hab : a.Gains allowed b) (hbc : b.Gains allowed c) : a.Gains allowed c := by
  induction hbc with
  | nothing => exact hab
  | entry _ entry hentry ih => exact ih.entry entry hentry

theorem mono (h : a.Gains allowed b) (himp : ∀ offset, allowed offset → permitted offset) :
    a.Gains permitted b := by
  induction h with
  | nothing => exact .nothing
  | entry _ entry hentry ih => exact ih.entry entry (himp _ hentry)

/-- Without a place for entries nothing is gained. -/
theorem eq_of_forall_not (h : a.Gains allowed b) (hnone : ∀ offset, ¬allowed offset) : b = a := by
  cases h with
  | nothing => rfl
  | entry _ entry hentry => exact absurd hentry (hnone _)

theorem before {offset : Int} (h : a.Gains allowed b) (ha : a.Before offset)
    (hlt : ∀ place, allowed place → place < offset) : b.Before offset := by
  induction h with
  | nothing => exact ha
  | entry _ entry hentry ih => exact ih.record (hlt _ hentry)

theorem ordered (h : a.Gains allowed b) (ha : a.Ordered) : b.Ordered := by
  induction h with
  | nothing => exact ha
  | entry _ entry _ ih => exact ih.record entry

end Gains

theorem offset_lt_of_mem_dropWhile {entries : List α} {offset : Int}
    (h : entries.Pairwise fun later earlier =>
      Positioned.offset earlier ≤ Positioned.offset later) :
    ∀ entry ∈ entries.dropWhile (fun e => offset ≤ Positioned.offset e),
      Positioned.offset entry < offset := by
  induction entries with
  | nil => exact fun entry hentry => absurd hentry List.not_mem_nil
  | cons last rest ih =>
      intro entry hentry
      rw [List.pairwise_cons] at h
      by_cases hlast : offset ≤ Positioned.offset last
      · rw [List.dropWhile_cons_of_pos (by simpa using hlast)] at hentry
        exact ih h.2 entry hentry
      · rw [List.dropWhile_cons_of_neg (by simpa using hlast)] at hentry
        rcases List.mem_cons.mp hentry with rfl | hentry
        · exact Int.not_le.mp hlast
        · exact Int.lt_of_le_of_lt (h.1 entry hentry) (Int.not_le.mp hlast)

/-- A trim leaves nothing at or after the offset. -/
theorem Ordered.before_trim (h : a.Ordered) (offset : Int) : (a.trim offset).Before offset :=
  offset_lt_of_mem_dropWhile h

theorem dropWhile_insertLast_of_lt {entry : α} {entries : List α} {offset : Int}
    (hentry : Positioned.offset entry < offset) :
    (insertLast entry entries).dropWhile (fun e => offset ≤ Positioned.offset e) =
      insertLast entry (entries.dropWhile fun e => offset ≤ Positioned.offset e) := by
  induction entries with
  | nil => simp [insertLast, hentry]
  | cons last rest ih =>
      by_cases hlast : offset ≤ Positioned.offset last
      · rw [insertLast, if_pos (by omega), List.dropWhile_cons_of_pos (by simpa using hlast), ih,
          List.dropWhile_cons_of_pos (by simpa using hlast)]
      · rw [List.dropWhile_cons_of_neg (by simpa using hlast), insertLast]
        split
        · rw [List.dropWhile_cons_of_neg (by simpa using hlast)]
        · rw [List.dropWhile_cons_of_neg (by simpa using hentry)]

/-- A trim does not touch an entry before the offset. -/
theorem trim_record_of_lt {entry : α} {offset : Int} (hentry : Positioned.offset entry < offset) :
    (a.record entry).trim offset = (a.trim offset).record entry := by
  rw [trim, record, dropWhile_insertLast_of_lt hentry]
  rfl

/-- A trim leaves of the gains those before the offset. -/
theorem Gains.trim {offset : Int} (h : a.Gains allowed b) (ha : a.Before offset) :
    a.Gains (fun place => allowed place ∧ place < offset) (b.trim offset) := by
  induction h with
  | nothing =>
      rw [ha.trim_eq]
      exact .nothing
  | entry _ entry hentry ih =>
      by_cases hlt : Positioned.offset entry < offset
      · rw [trim_record_of_lt hlt]
        exact ih.entry entry ⟨hentry, hlt⟩
      · rw [trim_record (Int.not_lt.mp hlt)]
        exact ih

end OffsetLog

namespace Recorder

variable {allowed permitted : Int → Prop} {a b c : Recorder}

/-- Whether every log of one recorder comes from that of another by recording entries at
allowed offsets. -/
structure Gains (allowed : Int → Prop) (a b : Recorder) : Prop where
  log : ∀ kind, (a.log kind).Gains allowed (b.log kind)
  lexemes : a.lexemes.Gains allowed b.lexemes

namespace Gains

theorem refl (a : Recorder) : a.Gains allowed a := ⟨fun _ => .nothing, .nothing⟩

theorem trans (hab : a.Gains allowed b) (hbc : b.Gains allowed c) : a.Gains allowed c :=
  ⟨fun kind => (hab.log kind).trans (hbc.log kind), hab.lexemes.trans hbc.lexemes⟩

theorem mono (h : a.Gains allowed b) (himp : ∀ offset, allowed offset → permitted offset) :
    a.Gains permitted b :=
  ⟨fun kind => (h.log kind).mono himp, h.lexemes.mono himp⟩

theorem agrees (h : a.Gains allowed b) (hnone : ∀ offset, ¬allowed offset) : b.Agrees a :=
  ⟨fun kind => (h.log kind).eq_of_forall_not hnone, h.lexemes.eq_of_forall_not hnone⟩

theorem before {offset : Int} (h : a.Gains allowed b) (ha : a.Before offset)
    (hlt : ∀ place, allowed place → place < offset) : b.Before offset :=
  ⟨fun kind => (h.log kind).before (ha.log kind) hlt, h.lexemes.before ha.lexemes hlt⟩

theorem ordered (h : a.Gains allowed b) (ha : a.Ordered) : b.Ordered :=
  ⟨fun kind => (h.log kind).ordered (ha.log kind), h.lexemes.ordered ha.lexemes⟩

theorem trim {offset : Int} (h : a.Gains allowed b) (ha : a.Before offset) :
    a.Gains (fun place => allowed place ∧ place < offset) (b.trim offset) where
  log kind := by
    rw [log_trim]
    exact (h.log kind).trim (ha.log kind)
  lexemes := h.lexemes.trim ha.lexemes

/-- A capture is recorded where it begins. -/
theorem see (h : a.Gains allowed b) (source : Source) {c : Capture} (hc : allowed c.start) :
    a.Gains allowed (b.see source c) where
  log kind := by
    rw [log_see]
    split
    · exact (h.log kind).entry _ hc
    · exact h.log kind
  lexemes := by
    rw [lexemes_see]
    split
    · exact h.lexemes.entry _ hc
    · exact h.lexemes

end Gains

theorem Ordered.trim (h : a.Ordered) (offset : Int) : (a.trim offset).Ordered where
  log kind := by
    rw [log_trim]
    exact (h.log kind).trim offset
  lexemes := h.lexemes.trim offset

theorem Ordered.before_trim (h : a.Ordered) (offset : Int) : (a.trim offset).Before offset where
  log kind := by
    rw [log_trim]
    exact (h.log kind).before_trim offset
  lexemes := h.lexemes.before_trim offset

end Recorder

namespace State

variable {source : Source} {origin st last : State Recorder}

/-- Whether no anchor lies behind the cursor, and the logs are in order and end before it. -/
structure Orderly (st : State Recorder) : Prop where
  anchored : ∀ anchor ∈ st.anchors, anchor ≤ st.offset
  ordered : st.observed.Ordered
  before : st.observed.Before st.offset

theorem orderly_initial : (initial Recorder.empty).Orderly where
  anchored _ h := absurd h List.not_mem_nil
  ordered := Recorder.ordered_empty
  before := Recorder.before_empty 0

/-- Whether the innermost open anchor is at an offset. -/
def AtAnchor (st : State Recorder) (offset : Int) : Prop :=
  ∃ anchor, st.anchors.head? = some anchor ∧ offset = anchor

/-- Where the captures of a match that begins here may begin. -/
def Reports (st : State Recorder) (offset : Int) : Prop := st.offset ≤ offset ∨ st.AtAnchor offset

/-- Where those captures of a match begin that stay behind when the match fails. -/
def Leftover (st : State Recorder) (offset : Int) : Prop := st.AtAnchor offset ∧ offset < st.offset

/-- What a match that leads from one state to another does to the logs. -/
structure Onward (origin st : State Recorder) : Prop where
  around : origin.Around st
  forward : origin.offset ≤ st.offset
  orderly : st.Orderly
  gains : origin.observed.Gains origin.Reports st.observed

/-- What a match that fails and leads back to where it began does to the logs. -/
structure Rewound (origin st : State Recorder) : Prop where
  around : origin.Around st
  offset_eq : st.offset = origin.offset
  gains : origin.observed.Gains origin.Leftover st.observed

theorem AtAnchor.of_around {offset : Int} (h : st.AtAnchor offset) (haround : origin.Around st) :
    origin.AtAnchor offset := by
  rw [AtAnchor, haround.anchors] at h
  exact h

namespace Onward

theorem refl (h : st.Orderly) : st.Onward st := ⟨.refl st, Nat.le_refl _, h, .refl _⟩

theorem trans (h : origin.Onward st) (hlast : st.Onward last) : origin.Onward last where
  around := h.around.trans hlast.around
  forward := Nat.le_trans h.forward hlast.forward
  orderly := hlast.orderly
  gains := by
    refine h.gains.trans (hlast.gains.mono ?_)
    rintro offset (hafter | hanchor)
    · exact .inl (Int.le_trans (Int.ofNat_le.mpr h.forward) hafter)
    · exact .inr (hanchor.of_around h.around)

theorem advance (h : origin.Onward st) (count : Nat) : origin.Onward (st.advance count) where
  around := h.around.advance count
  forward := Nat.le_add_right_of_le h.forward
  orderly :=
    { anchored := fun anchor hanchor => Nat.le_add_right_of_le (h.orderly.anchored anchor hanchor)
      ordered := h.orderly.ordered
      before := h.orderly.before.mono (Int.ofNat_le.mpr (Nat.le_add_right _ _)) }
  gains := h.gains

/-- When the cursor returns, only what was recorded from an anchor before it stays. -/
theorem returnTo (h : origin.Onward st) (horigin : origin.Orderly) (source : Source) :
    origin.Rewound (st.returnTo (Recorder.observer source) origin) where
  around := h.around.returnTo _ _
  offset_eq := rfl
  gains := by
    refine (h.gains.trim horigin.before).mono ?_
    rintro offset ⟨hafter | hanchor, hlt⟩
    · exact absurd hlt (Int.not_lt.mpr hafter)
    · exact ⟨hanchor, hlt⟩

end Onward

namespace Rewound

/-- What stays behind lies before the cursor, so that matching may go on from there. -/
theorem onward (h : origin.Rewound st) (horigin : origin.Orderly) : origin.Onward st where
  around := h.around
  forward := Nat.le_of_eq h.offset_eq.symm
  orderly :=
    { anchored := by
        rw [h.around.anchors, h.offset_eq]
        exact horigin.anchored
      ordered := h.gains.ordered horigin.ordered
      before := by
        rw [h.offset_eq]
        exact h.gains.before horigin.before fun _ hplace => hplace.2 }
  gains := h.gains.mono fun _ hplace => .inr hplace.1

theorem refl (st : State Recorder) : st.Rewound st := ⟨.refl st, rfl, .refl _⟩

theorem noteFailure (h : origin.Rewound st) : origin.Rewound st.noteFailure where
  around := h.around.noteFailure
  offset_eq := by rw [offset_noteFailure, h.offset_eq]
  gains := by
    rw [State.noteFailure]
    split <;> exact h.gains

end Rewound

theorem Orderly.enter (h : st.Orderly) (rule : Rule) : (st.enter rule).Orderly where
  anchored anchor hanchor := by
    simp only [State.enter] at hanchor
    split at hanchor
    · rcases List.mem_cons.mp hanchor with rfl | hanchor
      · exact Nat.le_refl _
      · exact h.anchored anchor hanchor
    · exact h.anchored anchor hanchor
  ordered := h.ordered
  before := h.before

theorem Orderly.enterLookahead (h : st.Orderly) : st.enterLookahead.Orderly :=
  ⟨h.anchored, h.ordered, h.before⟩

theorem Orderly.advance (h : st.Orderly) (count : Nat) : (st.advance count).Orderly :=
  ((Onward.refl h).advance count).orderly

theorem Orderly.returnTo (horigin : origin.Orderly) (h : st.Orderly) (haround : origin.Around st) :
    (st.returnTo (Recorder.observer source) origin).Orderly where
  anchored := (haround.returnTo (Recorder.observer source) origin).anchors ▸ horigin.anchored
  ordered := h.ordered.trim _
  before := h.ordered.before_trim _

/-- Inside a rule that is an anchor the innermost anchor is where the rule begins. -/
theorem AtAnchor.of_enter {rule : Rule} {offset : Int} (h : (st.enter rule).AtAnchor offset) :
    st.AtAnchor offset ∨ offset = st.offset := by
  obtain ⟨anchor, hanchor, hoffset⟩ := h
  simp only [State.enter] at hanchor
  split at hanchor
  · cases hanchor
    exact .inr hoffset
  · exact .inl ⟨anchor, hanchor, hoffset⟩

/-- What a rule captures begins at an anchor around it, or where the rule began. -/
theorem reports_capture (haround : origin.Around st) (rule : Rule) :
    origin.Reports (st.capture rule origin.offset).start := by
  rw [capture, haround.anchors]
  cases rule.anchored with
  | false => exact .inl (Int.le_refl _)
  | true =>
      cases hanchors : origin.anchors with
      | nil => exact .inl (Int.le_refl _)
      | cons anchor others =>
          exact .inr ⟨anchor, by rw [hanchors]; rfl, rfl⟩

theorem capture_start_le (horigin : origin.Orderly) (haround : origin.Around st) (rule : Rule) :
    (st.capture rule origin.offset).start ≤ origin.offset := by
  rw [capture, haround.anchors]
  cases rule.anchored with
  | false => exact Int.le_refl _
  | true =>
      cases hanchors : origin.anchors with
      | nil => exact Int.le_refl _
      | cons anchor others =>
          exact Int.ofNat_le.mpr (horigin.anchored anchor (hanchors ▸ List.mem_cons_self))

/-- A rule that has matched and is recorded if it is watched. -/
theorem Onward.announce {rule : Rule} (horigin : origin.Orderly)
    (h : (origin.enter rule).Onward st)
    (htakes : Recorder.watches rule.name = true → origin.offset < st.offset) :
    origin.Onward ((st.leave rule).announce (Recorder.observer source) rule origin.offset) := by
  have haround : origin.Around (st.leave rule) := h.around.leave
  have hoffset : ((st.leave rule).announce (Recorder.observer source) rule origin.offset).offset =
      (st.leave rule).offset := offset_eq (walk_announce source _ _ _)
  have hforward : origin.offset ≤ st.offset := h.forward
  have hgains : origin.observed.Gains origin.Reports st.observed := by
    refine h.gains.mono ?_
    rintro offset (hafter | hanchor)
    · exact .inl hafter
    · rcases hanchor.of_enter with hanchor | rfl
      · exact .inr hanchor
      · exact .inl (Int.le_refl _)
  have hafter := haround.announce (Recorder.observer source) rule origin.offset
  refine ⟨hafter, hoffset ▸ hforward, ⟨?_, ?_, ?_⟩, ?_⟩
  · rw [hafter.anchors, hoffset]
    exact fun anchor hanchor => Nat.le_trans (horigin.anchored anchor hanchor) hforward
  · rw [observed_announce]
    split
    · exact h.orderly.ordered.see source _
    · exact h.orderly.ordered
  · rw [hoffset, observed_announce]
    split
    · apply h.orderly.before.see source
      intro hwatches
      exact Int.lt_of_le_of_lt (capture_start_le horigin haround rule)
        (Int.ofNat_lt.mpr (htakes hwatches))
    · exact h.orderly.before
  · rw [observed_announce]
    split
    · exact hgains.see source (reports_capture haround rule)
    · exact hgains

/-- A rule that has not matched. -/
theorem Rewound.leave {rule : Rule} (h : (origin.enter rule).Rewound st) :
    origin.Rewound (st.leave rule) where
  around := h.around.leave
  offset_eq := h.offset_eq
  gains := by
    refine h.gains.mono ?_
    rintro offset ⟨hanchor, hlt⟩
    rcases hanchor.of_enter with hanchor | rfl
    · exact ⟨hanchor, hlt⟩
    · exact absurd hlt (Int.lt_irrefl _)

theorem Onward.leaveLookahead (horigin : origin.Orderly) (h : origin.enterLookahead.Onward st) :
    origin.Rewound (st.leaveLookahead.returnTo (Recorder.observer source) origin) :=
  have houtside : origin.Onward st.leaveLookahead :=
    { around := h.around.leaveLookahead
      forward := h.forward
      orderly := ⟨h.orderly.anchored, h.orderly.ordered, h.orderly.before⟩
      gains := h.gains }
  houtside.returnTo horigin source

end State

/-- What the end of a match says of the logs. -/
def Outcome.Leaves (origin : State Recorder) : Outcome Recorder → Prop
  | ⟨.matched, last⟩ => origin.Onward last
  | ⟨.failed, last⟩ => origin.Rewound last
  | ⟨.stopped _, _⟩ => True

namespace Matching

open State

/-- Whether a step leaves no more in the logs than it may, from any orderly state. -/
def Leaving (step : State Recorder → Outcome Recorder) : Prop :=
  ∀ st, st.Orderly → (step st).Leaves st

variable {source : Source}

theorem leaving_terminal (text : Array Char) (t : Terminal) : Leaving (terminal text t) := by
  intro st hst
  rw [terminal]
  cases t.scan text st.offset with
  | take count => exact (Onward.refl hst).advance count
  | stay => exact Onward.refl hst
  | miss => exact (Rewound.refl st).noteFailure
  | unclosed level => trivial

theorem leaves_sequence {step : Pattern → State Recorder → Outcome Recorder}
    (hstep : ∀ p, Leaving (step p)) {origin : State Recorder} (horigin : origin.Orderly)
    (items : List Pattern) {st : State Recorder} (hst : origin.Onward st) :
    (sequence (Recorder.observer source) step origin items st).Leaves origin := by
  induction items generalizing st with
  | nil => exact hst
  | cons item items ih =>
      have hitem := hstep item st hst.orderly
      rw [sequence]
      rcases houtcome : step item st with ⟨verdict, next⟩
      rw [houtcome] at hitem
      cases verdict with
      | matched => exact ih (hst.trans hitem)
      | failed => exact (hst.trans (Rewound.onward hitem hst.orderly)).returnTo horigin source
      | stopped stop => trivial

theorem leaves_choice {step : Pattern → State Recorder → Outcome Recorder}
    (hstep : ∀ p, Leaving (step p)) {origin : State Recorder} (horigin : origin.Orderly)
    (alternatives : List Pattern) {st : State Recorder} (hst : origin.Rewound st) :
    (choice (Recorder.observer source) step origin alternatives st).Leaves origin := by
  induction alternatives generalizing st with
  | nil => exact hst
  | cons alternative alternatives ih =>
      have hhere := hst.onward horigin
      have hfirst := hstep alternative st hhere.orderly
      rw [choice]
      rcases houtcome : step alternative st with ⟨verdict, next⟩
      rw [houtcome] at hfirst
      cases verdict with
      | matched => exact hhere.trans hfirst
      | failed => 
          exact ih ((hhere.trans (Rewound.onward hfirst hhere.orderly)).returnTo horigin source)
      | stopped stop => trivial

variable {body stop : State Recorder → Outcome Recorder}

theorem leaves_looped {spent : Verdict} (hspent : spent ≠ .failed) (hbody : Leaving body)
    (rounds : Nat) {origin st : State Recorder} (hst : origin.Onward st) :
    (looped (Recorder.observer source) spent body rounds st).Leaves origin := by
  have hround : ∀ {st next verdict}, st.Orderly → body st = ⟨verdict, next⟩ →
      (⟨verdict, next⟩ : Outcome Recorder).Leaves st := fun hst h => h ▸ hbody _ hst
  refine looped_induction (P := fun _ st outcome => origin.Onward st → outcome.Leaves origin)
    ?spent ?matched ?failed (fun _ _ => trivial) rounds st hst
  case spent =>
    intro st hst
    cases spent with
    | matched => exact hst
    | failed => exact absurd rfl hspent
    | stopped stop => trivial
  case matched => exact fun h ih hst => ih (hst.trans (hround hst.orderly h))
  case failed =>
    intro _ st _ h hst
    have hback := (Rewound.onward (hround hst.orderly h) hst.orderly).returnTo hst.orderly source
    exact hst.trans (hback.onward hst.orderly)

theorem leaves_skipped (size : Nat) (hstop : Leaving stop) {origin : State Recorder}
    (horigin : origin.Orderly) (rounds : Nat) {st : State Recorder} (hst : origin.Onward st) :
    (skipped (Recorder.observer source) size stop origin rounds st).Leaves origin := by
  induction rounds generalizing st with
  | zero => trivial
  | succ rounds ih =>
      have hhere := hstop st hst.orderly
      rw [skipped]
      rcases houtcome : stop st with ⟨verdict, next⟩
      rw [houtcome] at hhere
      cases verdict with
      | matched => exact hst.trans hhere
      | failed =>
          have hnext := hst.trans (Rewound.onward hhere hst.orderly)
          dsimp only
          split
          · exact (hnext.returnTo horigin source).noteFailure
          · exact ih (hnext.advance 1)
      | stopped stop => trivial

theorem leaves_repeatedUntil (hstop : Leaving stop) (hbody : Leaving body)
    {origin : State Recorder} (horigin : origin.Orderly) (rounds : Nat) {st : State Recorder}
    (hst : origin.Onward st) :
    (repeatedUntil (Recorder.observer source) stop body origin rounds st).Leaves origin := by
  induction rounds generalizing st with
  | zero => trivial
  | succ rounds ih =>
      have hhere := hstop st hst.orderly
      rw [repeatedUntil]
      rcases houtcome : stop st with ⟨verdict, next⟩
      rw [houtcome] at hhere
      cases verdict with
      | matched => exact hst.trans hhere
      | failed =>
          have hnext := hst.trans (Rewound.onward hhere hst.orderly)
          have hround := hbody next hnext.orderly
          dsimp only
          rcases hafter : body next with ⟨verdict, later⟩
          rw [hafter] at hround
          cases verdict with
          | matched => exact ih (hnext.trans hround)
          | failed =>
              exact (hnext.trans (Rewound.onward hround hnext.orderly)).returnTo horigin source
          | stopped stop => trivial
      | stopped stop => trivial

theorem leaving_lookahead (hbody : Leaving body) (negated : Bool) :
    Leaving (lookahead (Recorder.observer source) negated body) := by
  intro st hst
  have hinner := hbody st.enterLookahead hst.enterLookahead
  have houtcome : ∀ last, st.enterLookahead.Onward last → ∀ verdict,
      verdict = .matched ∨ verdict = .failed →
      Outcome.Leaves st
        ⟨verdict, last.leaveLookahead.returnTo (Recorder.observer source) st⟩ := by
    rintro last hlast verdict (rfl | rfl)
    · exact (hlast.leaveLookahead hst).onward hst
    · exact hlast.leaveLookahead hst
  rw [lookahead]
  rcases hbodyOutcome : body st.enterLookahead with ⟨verdict, last⟩
  rw [hbodyOutcome] at hinner
  cases verdict with
  | matched => exact houtcome last hinner _ (by cases negated <;> simp)
  | failed =>
      exact houtcome last (Rewound.onward hinner hst.enterLookahead) _ (by cases negated <;> simp)
  | stopped stop => trivial

theorem leaving_committed (hbody : Leaving body) (description : Unit → String) :
    Leaving (committed body description) := by
  intro st hst
  have hinner := hbody st hst
  rw [committed]
  rcases houtcome : body st with ⟨verdict, last⟩
  rw [houtcome] at hinner
  cases verdict with
  | matched => exact hinner
  | failed => trivial
  | stopped stop => trivial

theorem leaving_named (hbody : Leaving body) {rule : Rule}
    (htakes : Recorder.watches rule.name = true → ∀ st last, body st = ⟨.matched, last⟩ →
      st.offset < last.offset) :
    Leaving (named (Recorder.observer source) rule body) := by
  intro st hst
  have hinner := hbody (st.enter rule) (hst.enter rule)
  rw [named]
  rcases houtcome : body (st.enter rule) with ⟨verdict, last⟩
  rw [houtcome] at hinner
  cases verdict with
  | matched =>
      exact hinner.announce hst fun hwatches => htakes hwatches (st.enter rule) last houtcome
  | failed => exact hinner.leave
  | stopped stop => trivial

variable {g : Grammar}
  (hwatched : ∀ rule ∈ g.rules, Recorder.watches rule.name = true →
    rule.body.nullable g.nullableRules = false)

include hwatched

/-- If the rules that the recorder looks out for always take something, no match leaves more
in the logs than it may. -/
theorem leaving_run (source : Source) (depth : Nat) (p : Pattern) :
    Leaving (run (g.setting source.text (Recorder.observer source)) depth p) := by
  induction depth generalizing p with
  | zero => exact fun st _ => trivial
  | succ depth ih =>
      intro st hst
      have hhere := Onward.refl hst
      cases p with
      | terminal t => exact leaving_terminal source.text t st hst
      | seq items => exact leaves_sequence ih hst items hhere
      | choice alternatives => exact leaves_choice ih hst alternatives (.refl st)
      | star site body =>
          rw [run, repeated_eq_looped]
          exact leaves_looped (by simp) (ih body) _ hhere
      | plus site body =>
          have hfirst := ih body st hst
          simp only [run]
          rcases houtcome :
            run (g.setting source.text (Recorder.observer source)) depth body st with
            ⟨verdict, next⟩
          rw [houtcome] at hfirst
          cases verdict with
          | matched =>
              dsimp only
              rw [repeated_eq_looped]
              exact leaves_looped (by simp) (ih body) _ hfirst
          | failed => exact hfirst
          | stopped stop => trivial
      | opt body =>
          rw [run, repeatedAtMost_eq_looped]
          exact leaves_looped (by simp) (ih body) 1 hhere
      | atMost count body =>
          rw [run, repeatedAtMost_eq_looped]
          exact leaves_looped (by simp) (ih body) count.toNat hhere
      | lookahead negated body => exact leaving_lookahead (ih body) negated st hst
      | skipTo stop => exact leaves_skipped _ (ih stop) hst _ hhere
      | repeatUntil site stop body => exact leaves_repeatedUntil (ih stop) (ih body) hst _ hhere
      | must body => exact leaving_committed (ih body) (fun _ => body.describe) st hst
      | rule name =>
          simp only [run]
          cases hrule : (g.setting source.text (Recorder.observer source)).rule? name with
          | none => trivial
          | some rule =>
              refine leaving_named (ih rule.body) ?_ st hst
              intro hwatches st last hmatched
              have hmoves := Grammar.moving_run (closed_nullableRules g) source.text
                (Recorder.observer source) depth rule.body st
              rw [hwatched rule (Grammar.mem_of_rule? hrule) hwatches, hmatched] at hmoves
              cases hmoves with
              | matched forward inside stays =>
                  refine Nat.lt_of_le_of_ne forward fun heq => ?_
                  exact absurd (stays heq.symm) (by simp)
      | ref site name =>
          simp only [run]
          split
          · exact ih (.rule name) st hst
          · trivial

/-- Everywhere during a match of such a grammar the anchors and the logs are in order. -/
theorem invariant_orderly :
    Invariant (g.setting source.text (Recorder.observer source)) (fun _ => True) Orderly where
  uses _ _ := trivial
  enter rule h := h.enter rule
  enterLookahead h := h.enterLookahead
  returnTo horigin h haround := horigin.returnTo h haround
  advance h _ := h.advance 1
  matched {depth p st last} _ hst hmatched := by
    have hleaves := leaving_run hwatched source depth p st hst
    rw [hmatched] at hleaves
    exact hleaves.orderly
  failed {depth p st last} _ hst hfailed := by
    have hleaves := leaving_run hwatched source depth p st hst
    rw [hfailed] at hleaves
    exact (Rewound.onward hleaves hst).orderly

end Matching

/-! ## An anchored rule that is tried in vain -/

namespace Grammar

/-- A rule that reports from the innermost anchor. -/
def suffixRule : Rule where
  name := "reassignment"
  body := .text "+="
  anchored := true

/-- An attempt that gives the suffix up again when it is not the letter `z` that follows. -/
def attempt : Pattern := .seq [.ref (some 0) "reassignment", .text "z"]

/-- An anchor with the attempt after a letter. -/
def retryRule : Rule where
  name := "root"
  body := .seq [.text "a", .choice [attempt, .text "+="]]
  anchor := true

/-- A grammar whose root may try an anchored rule in vain. -/
def retry : Grammar :=
  { empty "retry" "root" [] with
    rules := [suffixRule, retryRule]
    references := ["reassignment"]
    sites := 1
    index := ruleIndex [suffixRule, retryRule]
    index_eq := rfl }

theorem isLinked_retry : retry.link.isLinked = fun site name =>
    (match site with
      | some site => decide (site < 1)
      | none => true) &&
      ([suffixRule, retryRule].find? fun rule => rule.name == name).isSome := by
  funext site name
  have hindex : retry.link.linkedIndex.contains name =
      ([suffixRule, retryRule].find? fun rule => rule.name == name).isSome := by
    rw [retry.link.linkedIndex_eq, Std.HashMap.contains_eq_isSome_getElem?, getElem?_ruleIndex]
    rfl
  unfold isLinked
  rw [hindex]
  rfl

/-- The only pattern with a site is the one reference. -/
theorem eq_ref_of_mem_retry {rule : Rule} (hrule : rule ∈ retry.link.rules) {p : Pattern}
    (hp : p ∈ rule.body.subpatterns) :
    p = .ref (some 0) "reassignment" ∨
      p.site = none ∧ (∀ name, p ≠ .rule name) ∧ ∀ site name, p ≠ .ref site name := by
  rcases List.mem_pair.mp hrule with rfl | rfl
  · cases List.mem_singleton.mp hp
    exact .inr (by simp [Pattern.site])
  · simp only [retryRule, attempt, Pattern.text, Pattern.subpatterns, Pattern.subpatternsOfAll,
      List.nil_append, List.cons_append, List.mem_cons, List.not_mem_nil,
      or_false] at hp
    rcases hp with rfl | rfl | rfl | rfl | rfl | rfl | rfl <;> simp [Pattern.site]

theorem assembled_retry : retry.link.Assembled where
  unplaced rule hrule name hname := by
    rcases eq_ref_of_mem_retry hrule hname with href | ⟨_, hother, _⟩
    · cases href
    · exact hother name rfl
  linked rule hrule site name hname _ := by
    rcases eq_ref_of_mem_retry hrule hname with href | ⟨_, _, hother⟩
    · cases href
      rw [isLinked_retry]
      decide
    · exact absurd rfl (hother site name)
  shared rule hrule p hp q hq hsite hsome := by
    have href : ∀ r ∈ rule.body.subpatterns, r.site ≠ none → r = .ref (some 0) "reassignment" :=
      fun r hr hr' => (eq_ref_of_mem_retry hrule hr).resolve_right fun hother => hr' hother.1
    rw [href p hp hsome, href q hq (hsite ▸ hsome)]

theorem flaws_retry : retry.link.analyze.flaws = [] := by
  rw [flaws_eq_nil_iff]
  unfold undefinedReferences unreachableRules leftCycles reachable leftCalls mentionsOf
  simp only [defines_eq, rule?_eq]
  decide

theorem watched_retry : ∀ rule ∈ retry.link.rules, Recorder.watches rule.name = true →
    rule.body.nullable retry.link.nullableRules = false := by
  have hnullable : retry.link.nullableRules = [] := by decide
  rw [hnullable]
  decide

/-- A text on which the attempt fails. -/
def retrySource : Source := .ofString "a+=" "cart"

/-- The setting of a match of this text with the recorder attached. -/
def retrySetting : Setting Recorder :=
  retry.link.setting retrySource.text (Recorder.observer retrySource)

theorem retrySetting_eq : retrySetting =
    { text := retrySource.text
      rule? := fun name => [suffixRule, retryRule].find? fun rule => rule.name == name
      isLinked := fun site name =>
        (match site with
          | some site => decide (site < 1)
          | none => true) &&
          ([suffixRule, retryRule].find? fun rule => rule.name == name).isSome
      observer := Recorder.observer retrySource } := by
  rw [retrySetting, setting, rule?_eq, isLinked_retry]
  rfl

/-- The state behind the letter. -/
def afterLetter : State Recorder := ((State.initial .empty).enter retryRule).advance 1

theorem during_retry : Matching.During retrySetting leastNesting (.rule "root") (.initial .empty)
    997 attempt afterLetter := by
  have hroot : retrySetting.rule? "root" = some retryRule := by
    rw [retrySetting_eq]
    rfl
  have hletter : Matching.run retrySetting 998 (.text "a")
      ((State.initial .empty).enter retryRule) = ⟨.matched, afterLetter⟩ := by
    rw [retrySetting_eq]
    rfl
  have hattempt : Matching.During retrySetting 998 (.choice [attempt, .text "+="]) afterLetter
      997 attempt afterLetter :=
    .inside (.choiceHere _ _ _) (.itself _ _ _)
  exact .inside (.rule _ hroot) (.inside (.seqLater hletter (.seqHere _ [] _)) hattempt)

theorem failed_attempt :
    (Matching.run retrySetting 997 attempt afterLetter).verdict = .failed := by
  rw [retrySetting_eq]
  decide

end Grammar

/-! ## What stays behind -/

/-- In a parse with the recorder attached, a match that fails adds nothing to the logs but
entries that begin at the innermost open anchor and lie before the cursor.  If that anchor is
at the cursor, or none is open, the logs are what they were. -/
theorem failure_leaves_anchored_entries {g : Grammar} (source : Source)
    (hwatched : ∀ rule ∈ g.rules, Recorder.watches rule.name = true →
      rule.body.nullable g.nullableRules = false)
    {depth below : Nat} {p q : Pattern} {st : State Recorder}
    (hduring : Matching.During (g.setting source.text (Recorder.observer source)) depth p
      (.initial .empty) below q st)
    (hfailed : (Matching.run (g.setting source.text (Recorder.observer source)) below q
      st).verdict = .failed) :
    st.observed.Gains st.Leftover
        (Matching.run (g.setting source.text (Recorder.observer source)) below q
          st).state.observed ∧
      ((∀ anchor, st.anchors.head? = some anchor → anchor = st.offset) →
        (Matching.run (g.setting source.text (Recorder.observer source)) below q
          st).state.observed.Agrees st.observed) := by
  have hst := ((Matching.invariant_orderly hwatched).of_during hduring trivial
    State.orderly_initial).2
  have hleaves := Matching.leaving_run hwatched source below q st hst
  rcases houtcome : Matching.run (g.setting source.text (Recorder.observer source)) below q st with
    ⟨verdict, last⟩
  rw [houtcome] at hleaves hfailed
  cases hfailed
  refine ⟨hleaves.gains, fun hhere => hleaves.gains.agrees ?_⟩
  rintro offset ⟨⟨anchor, hanchor, rfl⟩, hlt⟩
  rw [hhere anchor hanchor] at hlt
  exact absurd hlt (Int.lt_irrefl _)

/-- What the attempt leaves behind on `a+=` begins at the anchor, before the cursor. -/
theorem failure_leaves_anchored_entries_retry :
    (Matching.run Grammar.retrySetting 997 Grammar.attempt Grammar.afterLetter).verdict = .failed ∧
      Grammar.afterLetter.observed.Gains Grammar.afterLetter.Leftover
        (Matching.run Grammar.retrySetting 997 Grammar.attempt
          Grammar.afterLetter).state.observed :=
  ⟨Grammar.failed_attempt, (failure_leaves_anchored_entries Grammar.retrySource
    Grammar.watched_retry Grammar.during_retry Grammar.failed_attempt).1⟩

/-- A failure may leave an entry behind: on `a+=` the alternative that expects a `z` fails
after the rule before it was recorded from the anchor, and the entry stays in the log. -/
theorem failure_may_leave_an_entry :
    Grammar.retry.link.Assembled ∧ Grammar.retry.link.analyze.flaws = [] ∧
      (∀ rule ∈ Grammar.retry.link.rules, Recorder.watches rule.name = true →
        rule.body.nullable Grammar.retry.link.nullableRules = false) ∧
      ∃ below q st,
        Matching.During Grammar.retrySetting leastNesting (.rule "root") (.initial .empty)
          below q st ∧
        (Matching.run Grammar.retrySetting below q st).verdict = .failed ∧
        ¬(Matching.run Grammar.retrySetting below q st).state.observed.Agrees st.observed := by
  have hsize : ((Matching.run Grammar.retrySetting 997 Grammar.attempt
      Grammar.afterLetter).state.observed.log .reassignment).size ≠
      (Grammar.afterLetter.observed.log .reassignment).size := by
    rw [Grammar.retrySetting_eq]
    decide +kernel
  exact ⟨Grammar.assembled_retry, Grammar.flaws_retry, Grammar.watched_retry, 997,
    Grammar.attempt, Grammar.afterLetter, Grammar.during_retry, Grammar.failed_attempt,
    fun hagrees => hsize (congrArg OffsetLog.size (hagrees.log .reassignment))⟩

end CartLua
