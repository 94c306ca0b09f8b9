import CartLua.Matching.Run
import CartLua.Proofs.Grammar.Sound
import CartLua.Proofs.Occurrence.Rewind

/-!
# The matcher follows derivations

A match with the recorder attached ends as the derivation says, and the recorder then
holds what the rules of the derivation captured and nothing else.  A pattern that
fails leaves the recorder as it was: what its parts recorded begins where the pattern
began or later, and is taken back when the cursor returns.
-/

namespace CartLua

/-- A sound grammar in which the rules that the recorder looks out for always take
something. -/
structure Grammar.Recordable (g : Grammar) extends g.Sound where
  watched : ∀ rule ∈ g.rules, Recorder.watches rule.name = true →
    rule.body.nullable traits.nullable = false

namespace State

variable {source : Source}

/-- What is left of the text. -/
def left (source : Source) (st : State Recorder) : List Char := Text.rest source.text st.offset

/-- Whether the cursor is in the text, no anchor lies behind it, and everything
recorded begins before it. -/
structure Settled (source : Source) (st : State Recorder) : Prop where
  offset_le : st.offset ≤ source.text.size
  anchored : st.walk.Anchored
  ordered : st.observed.Ordered
  before : st.observed.Before st.offset

/-- Whether the parts of a match lead from one state to another. -/
structure Reaches (source : Source) (st : State Recorder) (parts : List Tree)
    (last : State Recorder) : Prop where
  walk : last.walk = st.walk.passAll parts
  observed : last.observed.Agrees (st.observed.seeAll source (st.walk.capturesOfAll parts))
  settled : last.Settled source

/-- Whether a failure leads back from one state to another. -/
structure Returns (st last : State Recorder) : Prop where
  walk : last.walk = st.walk
  observed : last.observed.Agrees st.observed

theorem offset_eq {st last : State Recorder} (h : last.walk = st.walk) :
    last.offset = st.offset :=
  congrArg Walk.offset h

theorem Returns.left_eq {st last : State Recorder} (h : Returns st last) :
    last.left source = st.left source := by
  rw [left, offset_eq h.walk, left]

theorem Returns.settled {st last : State Recorder} (h : Returns st last)
    (hst : st.Settled source) : last.Settled source where
  offset_le := offset_eq h.walk ▸ hst.offset_le
  anchored := h.walk ▸ hst.anchored
  ordered := hst.ordered.of_agrees h.observed
  before := offset_eq h.walk ▸ hst.before.of_agrees h.observed

theorem Returns.trans {a b c : State Recorder} (hab : Returns a b) (hbc : Returns b c) :
    Returns a c :=
  ⟨hbc.walk.trans hab.walk, hbc.observed.trans hab.observed⟩

theorem Reaches.refl {st : State Recorder} (hst : st.Settled source) :
    Reaches source st [] st :=
  ⟨rfl, Recorder.Agrees.refl _, hst⟩

theorem Reaches.trans {a b c : State Recorder} {parts more : List Tree}
    (hab : Reaches source a parts b) (hbc : Reaches source b more c) :
    Reaches source a (parts ++ more) c where
  walk := by rw [hbc.walk, hab.walk, Walk.passAll_append]
  observed := by
    rw [Walk.capturesOfAll_append, Recorder.seeAll_append, ← hab.walk]
    exact hbc.observed.trans (hab.observed.seeAll source _)
  settled := hbc.settled

theorem Returns.reaches {a b c : State Recorder} {parts : List Tree} (hab : Returns a b)
    (hbc : Reaches source b parts c) : Reaches source a parts c where
  walk := by rw [hbc.walk, hab.walk]
  observed := by
    rw [← hab.walk]
    exact hbc.observed.trans (hab.observed.seeAll source _)
  settled := hbc.settled

theorem Reaches.returns {a b c : State Recorder} {parts : List Tree}
    (hab : Reaches source a parts b) (hbc : Returns b c) : Reaches source a parts c where
  walk := by rw [hbc.walk, hab.walk]
  observed := hbc.observed.trans hab.observed
  settled := hbc.settled hab.settled

/-- Returning to where some parts began takes back all that they recorded, unless one
of them reports from an anchor outside. -/
theorem Reaches.returnTo {origin st last : State Recorder} {parts : List Tree}
    (hparts : Reaches source origin parts st) (hclosed : Tree.opensAny parts = false)
    (horigin : origin.Settled source) (hlast : Returns st last) :
    Returns origin (last.returnTo (Recorder.observer source) origin) where
  walk := by
    have hwalk : last.walk = origin.walk.passAll parts := hlast.walk.trans hparts.walk
    rw [Walk.passAll_eq] at hwalk
    have hpadding := congrArg Walk.padding hwalk
    have hquiet := congrArg Walk.quiet hwalk
    have hanchors := congrArg Walk.anchors hwalk
    simp only [State.walk] at hpadding hquiet hanchors
    simp [State.walk, State.returnTo, hpadding, hquiet, hanchors]
  observed := by
    have hstart : ∀ c ∈ origin.walk.capturesOfAll parts, (origin.offset : Int) ≤ c.start :=
      fun c hc => Walk.le_start_of_mem_capturesOfAll hclosed hc
    have hagrees := (hlast.observed.trans hparts.observed).trim origin.offset
    exact (hagrees.trans (Recorder.trim_seeAll source _ hstart)).trans
      horigin.before.trim_agrees

/-- A failure noted changes neither the place nor what is recorded. -/
theorem returns_noteFailure (st : State Recorder) : Returns st st.noteFailure := by
  rw [noteFailure]
  split <;> exact ⟨rfl, Recorder.Agrees.refl _⟩

theorem Settled.advance {st : State Recorder} (hst : st.Settled source) {count : Nat}
    (hcount : st.offset + count ≤ source.text.size) : (st.advance count).Settled source where
  offset_le := hcount
  anchored := hst.anchored.advance count
  ordered := hst.ordered
  before := hst.before.mono (Int.ofNat_le.mpr (Nat.le_add_right _ _))

theorem left_advance (source : Source) (st : State Recorder) (count : Nat) :
    (st.advance count).left source = (st.left source).drop count :=
  Text.rest_add count

/-- Taking characters leads where their tree does. -/
theorem Settled.reaches_advance {st : State Recorder} (hst : st.Settled source) {count : Nat}
    (hcount : st.offset + count ≤ source.text.size) :
    Reaches source st [.chars ((st.left source).take count)] (st.advance count) where
  walk := by
    have hlength : ((st.left source).take count).length = count := by
      rw [List.length_take, left, Text.length_rest]
      omega
    change st.walk.advance count = st.walk.advance ((st.left source).take count).length
    rw [hlength]
  observed := Recorder.Agrees.refl _
  settled := hst.advance hcount

theorem Reaches.offset_eq {st last : State Recorder} {parts : List Tree}
    (h : Reaches source st parts last) :
    last.offset = st.offset + (Tree.textOfAll parts).length := by
  have hwalk := congrArg Walk.offset h.walk
  rw [Walk.offset_passAll] at hwalk
  exact hwalk

end State

open State

variable {g : Grammar} {source : Source}

/-- The outcome of a pattern is what a derivation says of it.  Parts that matched
before may have led here from an origin, to which a failure returns. -/
def Tracks (g : Grammar) (source : Source) (p : Pattern) (origin : State Recorder)
    (done : List Tree) (st : State Recorder) : Outcome Recorder → Prop
  | ⟨.matched, last⟩ => ∃ parts, Derives g p (st.left source) (.matched parts (last.left source)) ∧
      Reaches source origin (done ++ parts) last
  | ⟨.failed, last⟩ => Derives g p (st.left source) .failed ∧ Returns origin last
  | ⟨.stopped stop, _⟩ =>
      stop = .tooDeep ∨ (∃ fault, stop = .fault fault) ∧ Derives g p (st.left source) .broken

/-- The outcome of a pattern tried by itself is what a derivation says of it. -/
abbrev Follows (g : Grammar) (source : Source) (p : Pattern) (st : State Recorder) :
    Outcome Recorder → Prop :=
  Tracks g source p st [] st

theorem Tracks.of_stopped {p q : Pattern} {origin origin' st st' last last' : State Recorder}
    {done done' : List Tree} {stop : Stop}
    (h : Tracks g source p origin done st ⟨.stopped stop, last⟩)
    (himp : Derives g p (st.left source) .broken → Derives g q (st'.left source) .broken) :
    Tracks g source q origin' done' st' ⟨.stopped stop, last'⟩ :=
  h.imp_right fun h => ⟨h.1, himp h.2⟩

/-- What follows some parts of a pattern decides about the whole pattern. -/
theorem Tracks.after {p q : Pattern} {origin st next : State Recorder} {done parts : List Tree}
    {outcome : Outcome Recorder} (h : Tracks g source q origin (done ++ parts) next outcome)
    (himp : ∀ a, Derives g q (next.left source) a → Derives g p (st.left source) (a.after parts)) :
    Tracks g source p origin done st outcome := by
  obtain ⟨verdict, last⟩ := outcome
  cases verdict with
  | matched =>
      obtain ⟨more, hmore, hlast⟩ := h
      exact ⟨parts ++ more, himp _ hmore, List.append_assoc done parts more ▸ hlast⟩
  | failed => exact ⟨himp _ h.1, h.2⟩
  | stopped stop => exact h.of_stopped (himp _)

/-- A pattern that does not fail may be tried after other parts. -/
theorem Tracks.of_follows {p : Pattern} {origin st : State Recorder} {done : List Tree}
    {outcome : Outcome Recorder} (h : Follows g source p st outcome)
    (hdone : Reaches source origin done st) (hmatches : outcome.verdict ≠ .failed) :
    Tracks g source p origin done st outcome := by
  obtain ⟨verdict, last⟩ := outcome
  cases verdict with
  | matched =>
      obtain ⟨parts, hparts, hlast⟩ := h
      exact ⟨parts, hparts, hdone.trans hlast⟩
  | failed => exact absurd rfl hmatches
  | stopped stop => exact h

/-- What is derived after a failure that returned holds where the failure began. -/
theorem Follows.of_returns {p : Pattern} {st back : State Recorder} {outcome : Outcome Recorder}
    (hback : Returns st back) (h : Follows g source p back outcome) :
    Follows g source p st outcome := by
  obtain ⟨verdict, last⟩ := outcome
  cases verdict with
  | matched =>
      obtain ⟨parts, hparts, hlast⟩ := h
      exact ⟨parts, hback.left_eq ▸ hparts, hback.reaches hlast⟩
  | failed => exact ⟨hback.left_eq ▸ h.1, hback.trans h.2⟩
  | stopped stop => exact h.imp_right fun h => ⟨h.1, hback.left_eq ▸ h.2⟩

/-- A pattern that is another one by another name. -/
theorem Follows.imp {p q : Pattern} {st : State Recorder} {outcome : Outcome Recorder}
    (h : Follows g source p st outcome)
    (himp : ∀ a, Derives g p (st.left source) a → Derives g q (st.left source) a) :
    Follows g source q st outcome := by
  obtain ⟨verdict, last⟩ := outcome
  cases verdict with
  | matched =>
      obtain ⟨parts, hparts, hlast⟩ := h
      exact ⟨parts, himp _ hparts, hlast⟩
  | failed => exact ⟨himp _ h.1, h.2⟩
  | stopped stop => exact h.of_stopped (himp _)

/-- A match that takes nothing returns to its beginning. -/
theorem follows_of_returns {p : Pattern} {st last : State Recorder} (hst : st.Settled source)
    (hlast : Returns st last)
    (hmatch : Derives g p (st.left source) (.matched [] (st.left source))) :
    Follows g source p st ⟨.matched, last⟩ := by
  have hleft : last.left source = st.left source := hlast.left_eq
  exact ⟨[], hleft.symm ▸ hmatch, (Reaches.refl hst).returns hlast⟩

theorem follows_terminal {t : Terminal} (ht : t.Bounded) {st : State Recorder}
    (hst : st.Settled source) :
    Follows g source (.terminal t) st (Matching.terminal source.text t st) := by
  have hscan := t.scan_eq_scan_rest hst.offset_le
  have hderives := Derives.terminal (g := g) t (st.left source)
  rw [Terminal.answer] at hderives
  rw [Matching.terminal]
  change t.scan source.text st.offset = t.scan (st.left source).toArray 0 at hscan
  rw [← hscan] at hderives
  cases htake : t.scan source.text st.offset with
  | take count =>
      rw [htake] at hderives
      refine ⟨_, ?_, hst.reaches_advance (Terminal.scan_take_le ht hst.offset_le htake)⟩
      rw [left_advance]
      exact hderives
  | stay =>
      rw [htake] at hderives
      exact ⟨[], hderives, Reaches.refl hst⟩
  | miss =>
      rw [htake] at hderives
      exact ⟨hderives, returns_noteFailure st⟩
  | unclosed level =>
      rw [htake] at hderives
      exact .inr ⟨⟨_, rfl⟩, hderives⟩

/-- A sequence, some of whose parts have matched already. -/
theorem tracks_sequence (hg : g.Sound) {step : Pattern → State Recorder → Outcome Recorder}
    (hstep : ∀ p, p.sound hg.traits = true → ∀ st, st.Settled source →
      Follows g source p st (step p st))
    {origin : State Recorder} (horigin : origin.Settled source) {items : List Pattern}
    (hitems : Pattern.soundInOrder hg.traits items = true) {done : List Tree} {st : State Recorder}
    (hdone : Reaches source origin done st)
    (hclosed : items = [] ∨ Tree.opensAny done = false) :
    Tracks g source (.seq items) origin done st
      (Matching.sequence (Recorder.observer source) step origin items st) := by
  induction items generalizing done st with
  | nil => exact ⟨[], .seqNil _, by simpa using hdone⟩
  | cons item items ih =>
      have hclosed := hclosed.resolve_left (List.cons_ne_nil _ _)
      simp only [Pattern.soundInOrder, Bool.and_eq_true, Bool.or_eq_true] at hitems
      obtain ⟨⟨hitem, hlast⟩, hitems⟩ := hitems
      have hfirst := hstep item hitem st hdone.settled
      rw [Matching.sequence]
      rcases houtcome : step item st with ⟨verdict, next⟩
      rw [houtcome] at hfirst
      cases verdict with
      | matched =>
          obtain ⟨parts, hparts, hreach⟩ := hfirst
          have hclosed' : items = [] ∨ Tree.opensAny (done ++ parts) = false := by
            rcases hlast with hempty | hitemClosed
            · exact .inl (List.isEmpty_iff.mp hempty)
            · apply Or.inr
              rw [Tree.opensAny_append, hclosed,
                hparts.toMatch.opensAny_eq_false hg (by simpa using hitemClosed)]
              rfl
          exact (ih hitems (hdone.trans hreach) hclosed').after fun _ => .seqCons hparts
      | failed => exact ⟨.seqStop hfirst.1 id, hdone.returnTo hclosed horigin hfirst.2⟩
      | stopped stop => exact hfirst.of_stopped fun h => .seqStop h id

/-- A choice, when the alternatives before have failed. -/
theorem follows_choice {traits : Traits} {step : Pattern → State Recorder → Outcome Recorder}
    (hstep : ∀ p, p.sound traits = true → ∀ st, st.Settled source →
      Follows g source p st (step p st))
    {origin : State Recorder} (horigin : origin.Settled source) {items : List Pattern}
    (hitems : Pattern.soundAll traits items = true) {st : State Recorder}
    (hst : Returns origin st) :
    Follows g source (.choice items) origin
      (Matching.choice (Recorder.observer source) step origin items st) := by
  induction items generalizing st with
  | nil => exact ⟨.choiceNil _, hst⟩
  | cons item items ih =>
      rw [Pattern.soundAll, Bool.and_eq_true] at hitems
      have hfirst := (hstep item hitems.1 st (hst.settled horigin)).of_returns hst
      rw [Matching.choice]
      rcases houtcome : step item st with ⟨verdict, next⟩
      rw [houtcome] at hfirst
      cases verdict with
      | matched =>
          obtain ⟨parts, hparts, hreach⟩ := hfirst
          exact ⟨parts, .choiceHere hparts (by simp), hreach⟩
      | failed =>
          have hback := (Reaches.refl horigin).returnTo rfl horigin hfirst.2
          have hothers : Tracks g source (.choice items) origin ([] ++ []) origin _ :=
            ih hitems.2 hback
          exact hothers.after fun a ha => (Answer.after_nil a).symm ▸ .choiceNext hfirst.1 ha
      | stopped stop => exact hfirst.of_stopped fun h => .choiceHere h (by simp)

theorem verdict_repeated_ne_failed (observer : Observer Recorder)
    (body : State Recorder → Outcome Recorder) (rounds : Nat) (st : State Recorder) :
    (Matching.repeated observer body rounds st).verdict ≠ .failed := by
  induction rounds generalizing st with
  | zero => simp [Matching.repeated]
  | succ rounds ih =>
      rw [Matching.repeated]
      rcases body st with ⟨verdict, next⟩
      cases verdict with
      | matched => exact ih next
      | failed => simp
      | stopped stop => simp

/-- A loop whose rounds take something, and of which there are enough. -/
theorem follows_repeated (hg : g.Sound) {site : Site} {p : Pattern}
    (hp : p.nullable hg.traits.nullable = false) {body : State Recorder → Outcome Recorder}
    (hbody : ∀ st, st.Settled source → Follows g source p st (body st)) {rounds : Nat}
    {st : State Recorder} (hst : st.Settled source)
    (hrounds : source.text.size < st.offset + rounds) :
    Follows g source (.star site p) st
      (Matching.repeated (Recorder.observer source) body rounds st) := by
  induction rounds generalizing st with
  | zero => exact absurd hst.offset_le (Nat.not_le.mpr hrounds)
  | succ rounds ih =>
      have hround := hbody st hst
      rw [Matching.repeated]
      rcases houtcome : body st with ⟨verdict, next⟩
      rw [houtcome] at hround
      cases verdict with
      | matched =>
          obtain ⟨parts, hparts, hreach⟩ := hround
          have htext := List.length_pos_iff.mpr (hparts.toMatch.text_ne_nil hg hp)
          have hoffset := Reaches.offset_eq hreach
          rw [List.nil_append] at hreach hoffset
          have hothers : Tracks g source (.star site p) st ([] ++ parts) next _ :=
            (ih hreach.settled (by omega)).of_follows hreach (verdict_repeated_ne_failed _ _ _ _)
          exact hothers.after fun _ => .starMore hparts
      | failed =>
          have hback := (Reaches.refl hst).returnTo rfl hst hround.2
          exact follows_of_returns hst hback (.starStop hround.1 id)
      | stopped stop => exact hround.of_stopped fun h => .starStop h id

/-- A bounded loop. -/
theorem follows_repeatedAtMost {p : Pattern} {body : State Recorder → Outcome Recorder}
    (hbody : ∀ st, st.Settled source → Follows g source p st (body st)) {rounds : Nat} {count : Int}
    (hcount : count.toNat = rounds) {st : State Recorder} (hst : st.Settled source) :
    Follows g source (.atMost count p) st
        (Matching.repeatedAtMost (Recorder.observer source) body rounds st) ∧
      (Matching.repeatedAtMost (Recorder.observer source) body rounds st).verdict ≠ .failed := by
  induction rounds generalizing count st with
  | zero => exact ⟨⟨[], .atMostZero _ hcount, Reaches.refl hst⟩, by simp [Matching.repeatedAtMost]⟩
  | succ rounds ih =>
      have hleft : count.toNat ≠ 0 := by omega
      have hround := hbody st hst
      rw [Matching.repeatedAtMost]
      rcases houtcome : body st with ⟨verdict, next⟩
      rw [houtcome] at hround
      cases verdict with
      | matched =>
          obtain ⟨parts, hparts, hreach⟩ := hround
          rw [List.nil_append] at hreach
          have hcount' : (count - 1).toNat = rounds := by omega
          obtain ⟨hrest, hmatches⟩ := ih hcount' hreach.settled
          have hothers : Tracks g source (.atMost (count - 1) p) st ([] ++ parts) next _ :=
            hrest.of_follows hreach hmatches
          exact ⟨hothers.after fun _ => .atMostMore hleft hparts, hmatches⟩
      | failed =>
          have hback := (Reaches.refl hst).returnTo rfl hst hround.2
          exact ⟨follows_of_returns hst hback (.atMostStop hleft hround.1 id), by simp⟩
      | stopped stop =>
          exact ⟨hround.of_stopped fun h => .atMostStop hleft h id, by simp⟩

/-- A pattern that may be left out. -/
theorem follows_opt {p : Pattern} {body : State Recorder → Outcome Recorder} {st : State Recorder}
    (hst : st.Settled source) (hbody : Follows g source p st (body st)) :
    Follows g source (.opt p) st
      (Matching.repeatedAtMost (Recorder.observer source) body 1 st) := by
  rw [Matching.repeatedAtMost]
  rcases houtcome : body st with ⟨verdict, next⟩
  rw [houtcome] at hbody
  cases verdict with
  | matched =>
      obtain ⟨parts, hparts, hreach⟩ := hbody
      exact ⟨parts, .opt hparts, hreach⟩
  | failed =>
      have hback := (Reaches.refl hst).returnTo rfl hst hbody.2
      exact follows_of_returns hst hback (.opt hbody.1)
  | stopped stop => exact hbody.of_stopped fun h => .opt h

/-- The characters passed on the way to a stop. -/
theorem tracks_skipped {p : Pattern} {stop : State Recorder → Outcome Recorder}
    (hstop : ∀ st, st.Settled source → Follows g source p st (stop st)) {origin : State Recorder}
    (horigin : origin.Settled source) {rounds : Nat} {done : List Tree} {st : State Recorder}
    (hdone : Reaches source origin done st) (hclosed : Tree.opensAny done = false)
    (hrounds : source.text.size < st.offset + rounds) :
    Tracks g source (.skipTo p) origin done st
      (Matching.skipped (Recorder.observer source) source.text.size stop origin rounds st) := by
  induction rounds generalizing done st with
  | zero => exact absurd hdone.settled.offset_le (Nat.not_le.mpr hrounds)
  | succ rounds ih =>
      have hhere := hstop st hdone.settled
      rw [Matching.skipped]
      rcases houtcome : stop st with ⟨verdict, next⟩
      rw [houtcome] at hhere
      cases verdict with
      | matched =>
          obtain ⟨parts, hparts, hreach⟩ := hhere
          exact ⟨parts, .skipHere hparts (by simp), hdone.trans hreach⟩
      | failed =>
          dsimp only
          have hoffset := State.offset_eq hhere.2.walk
          split
          · rename_i hend
            have hleft : st.left source = [] := by
              rw [← List.length_eq_zero_iff, left, Text.length_rest]
              omega
            refine ⟨?_, (hdone.returnTo hclosed horigin hhere.2).trans (returns_noteFailure _)⟩
            have hstopped := hhere.1
            rw [hleft] at hstopped ⊢
            exact .skipEnd hstopped
          · rename_i hend
            have hnext := hdone.returns hhere.2
            have hcount : next.offset + 1 ≤ source.text.size := by omega
            have hpassed := hnext.trans (hnext.settled.reaches_advance hcount)
            obtain ⟨c, rest, hcons⟩ : ∃ c rest, next.left source = c :: rest := by
              apply List.exists_cons_of_length_pos
              rw [left, Text.length_rest]
              omega
            have hadvance := left_advance source next 1
            rw [hcons] at hpassed hadvance
            have hothers := ih hpassed (by simp [hclosed, Tree.opensAny, Tree.opens])
              (by change _ < next.offset + 1 + rounds; omega)
            apply hothers.after
            intro a ha
            have hstopped := hhere.1
            rw [← hhere.2.left_eq, hcons] at hstopped ⊢
            rw [hadvance] at ha
            exact .skipPass hstopped ha
      | stopped stop => exact hhere.of_stopped fun h => .skipHere h (by simp)

/-- A loop that goes on until a stop matches. -/
theorem tracks_repeatedUntil (hg : g.Sound) {site : Site} {p q : Pattern}
    (hq : q.nullable hg.traits.nullable = false) (hopens : q.opens hg.traits.opening = false)
    {stop body : State Recorder → Outcome Recorder}
    (hstop : ∀ st, st.Settled source → Follows g source p st (stop st))
    (hbody : ∀ st, st.Settled source → Follows g source q st (body st)) {origin : State Recorder}
    (horigin : origin.Settled source) {rounds : Nat} {done : List Tree} {st : State Recorder}
    (hdone : Reaches source origin done st) (hclosed : Tree.opensAny done = false)
    (hrounds : source.text.size < st.offset + rounds) :
    Tracks g source (.repeatUntil site p q) origin done st
      (Matching.repeatedUntil (Recorder.observer source) stop body origin rounds st) := by
  induction rounds generalizing done st with
  | zero => exact absurd hdone.settled.offset_le (Nat.not_le.mpr hrounds)
  | succ rounds ih =>
      have hhere := hstop st hdone.settled
      rw [Matching.repeatedUntil]
      rcases houtcome : stop st with ⟨verdict, next⟩
      rw [houtcome] at hhere
      cases verdict with
      | matched =>
          obtain ⟨parts, hparts, hreach⟩ := hhere
          exact ⟨parts, .untilHere hparts (by simp), hdone.trans hreach⟩
      | failed =>
          have hnext := hdone.returns hhere.2
          have hround := (hbody next hnext.settled).of_returns hhere.2
          dsimp only
          rcases hbodyOutcome : body next with ⟨verdict, later⟩
          rw [hbodyOutcome] at hround
          cases verdict with
          | matched =>
              obtain ⟨parts, hparts, hreach⟩ := hround
              rw [List.nil_append] at hreach
              have htext := List.length_pos_iff.mpr (hparts.toMatch.text_ne_nil hg hq)
              have hoffset := hreach.offset_eq
              have hclosed' : Tree.opensAny (done ++ parts) = false := by
                rw [Tree.opensAny_append, hclosed, hparts.toMatch.opensAny_eq_false hg hopens]
                rfl
              exact (ih (hdone.trans hreach) hclosed' (by omega)).after fun _ =>
                .untilMore hhere.1 hparts
          | failed =>
              exact ⟨.untilStop hhere.1 hround.1 id, hdone.returnTo hclosed horigin hround.2⟩
          | stopped stop => exact hround.of_stopped fun h => .untilStop hhere.1 h id
      | stopped stop => exact hhere.of_stopped fun h => .untilHere h (by simp)

/-- A lookahead, in which nothing reports from an anchor outside. -/
theorem follows_lookahead (hg : g.Sound) {p : Pattern} (hp : p.opens hg.traits.opening = false)
    {negated : Bool} {body : State Recorder → Outcome Recorder} {st : State Recorder}
    (hst : st.Settled source)
    (hbody : Follows g source p st.enterLookahead (body st.enterLookahead)) :
    Follows g source (.lookahead negated p) st
      (Matching.lookahead (Recorder.observer source) negated body st) := by
  have hinside : st.enterLookahead.Settled source :=
    ⟨hst.offset_le, hst.anchored, hst.ordered, hst.before⟩
  have hreturn : ∀ {parts : List Tree} {last : State Recorder},
      Reaches source st.enterLookahead parts last → Tree.opensAny parts = false →
        Returns st (last.leaveLookahead.returnTo (Recorder.observer source) st) := by
    intro parts last hreach hclosed
    have hback := hreach.returnTo hclosed hinside ⟨rfl, Recorder.Agrees.refl _⟩
    have hpadding := congrArg Walk.padding hback.walk
    have hquiet := congrArg Walk.quiet hback.walk
    have hanchors := congrArg Walk.anchors hback.walk
    simp only [walk, returnTo, enterLookahead] at hpadding hquiet hanchors
    have hwalk : (last.leaveLookahead.returnTo (Recorder.observer source) st).walk = st.walk := by
      simp [walk, returnTo, leaveLookahead, hpadding, hquiet, hanchors]
    exact ⟨hwalk, hback.observed⟩
  rw [Matching.lookahead]
  rcases houtcome : body st.enterLookahead with ⟨verdict, last⟩
  rw [houtcome] at hbody
  cases verdict with
  | matched =>
      obtain ⟨parts, hparts, hreach⟩ := hbody
      have hback := hreturn hreach (hparts.toMatch.opensAny_eq_false hg hp)
      cases negated with
      | false => exact follows_of_returns hst hback (.lookahead hparts)
      | true => exact ⟨.lookahead hparts, hback⟩
  | failed =>
      have hback := hreturn ((Reaches.refl hinside).returns hbody.2) rfl
      cases negated with
      | false => exact ⟨.lookahead hbody.1, hback⟩
      | true => exact follows_of_returns hst hback (.lookahead hbody.1)
  | stopped stop => exact hbody.of_stopped fun h => .lookahead h

/-- A committed part. -/
theorem follows_committed {p : Pattern} {body : State Recorder → Outcome Recorder}
    (description : Unit → String) {st : State Recorder}
    (hbody : Follows g source p st (body st)) :
    Follows g source (.must p) st (Matching.committed body description st) := by
  rw [Matching.committed]
  rcases houtcome : body st with ⟨verdict, last⟩
  rw [houtcome] at hbody
  cases verdict with
  | matched =>
      obtain ⟨parts, hparts, hreach⟩ := hbody
      exact ⟨parts, .must hparts, hreach⟩
  | failed => exact .inr ⟨⟨_, rfl⟩, .must hbody.1⟩
  | stopped stop => exact hbody.of_stopped fun h => .must h

theorem walk_leave_enter (st : State Recorder) (rule : Rule) :
    ((st.enter rule).leave rule).walk = st.walk := by
  simp only [walk, enter, leave]
  cases rule.padding <;> cases rule.quiet <;> cases rule.anchor <;> simp

theorem walk_announce (source : Source) (st : State Recorder) (rule : Rule) (begin : Nat) :
    (st.announce (Recorder.observer source) rule begin).walk = st.walk := by
  rw [announce]
  split
  · split <;> rfl
  · rfl

theorem observed_announce (source : Source) (st : State Recorder) (rule : Rule) (begin : Nat) :
    (st.announce (Recorder.observer source) rule begin).observed =
      if st.quiet = 0 then st.observed.see source (st.walk.capture rule begin)
      else st.observed := by
  rw [announce]
  split
  · rw [Recorder.see, Walk.rule_capture]
    cases (Recorder.observer source).onMatch rule.name <;> rfl
  · rfl

/-- A rule that has matched is told of once its body is done. -/
theorem reaches_announce {rule : Rule} {parts : List Tree} {st last : State Recorder}
    (hst : st.Settled source) (hlast : Reaches source (st.enter rule) parts last)
    (hwatched : Recorder.watches rule.name = true → Tree.textOfAll parts ≠ []) :
    Reaches source st [.node rule parts]
      ((last.leave rule).announce (Recorder.observer source) rule st.offset) := by
  have hleave : (last.leave rule).walk = st.walk.pass (.node rule parts) :=
    congrArg (Walk.leave · rule) hlast.walk
  have hquiet : (last.leave rule).quiet = st.quiet := by
    have hwalk := congrArg Walk.quiet hleave
    rw [Walk.quiet_pass] at hwalk
    exact hwalk
  have hwalk : ((last.leave rule).announce (Recorder.observer source) rule st.offset).walk =
      st.walk.passAll [.node rule parts] := (walk_announce source _ _ _).trans hleave
  have hoffset : last.offset = st.offset + (Tree.textOfAll parts).length := hlast.offset_eq
  have hobserved := hlast.observed
  refine ⟨hwalk, ?_, ?_, ?_, ?_, ?_⟩
  · rw [observed_announce, hquiet, hleave]
    simp only [Walk.capturesOfAll, Walk.captures, List.append_nil]
    rw [Recorder.seeAll_append]
    change (if st.walk.quiet = 0 then _ else _ : Recorder).Agrees _
    split
    · exact hobserved.see source _
    · exact hobserved
  · exact (State.offset_eq (walk_announce source _ _ _)).symm ▸ hlast.settled.offset_le
  · rw [hwalk]
    exact hst.anchored.passAll _
  · rw [observed_announce]
    split
    · exact hlast.settled.ordered.see source _
    · exact hlast.settled.ordered
  · rw [State.offset_eq (walk_announce source _ _ _), observed_announce]
    split
    · apply hlast.settled.before.see source
      intro hwatches
      have hpos := List.length_pos_iff.mpr (hwatched hwatches)
      have hstart : ((last.leave rule).walk.capture rule st.offset).start ≤ (st.offset : Int) := by
        rw [hleave]
        exact (Walk.shows_capture hst.anchored rule parts).start_le
      change _ < (last.offset : Int)
      omega
    · exact hlast.settled.before

/-- A rule, whose body has been tried. -/
theorem follows_named (hg : g.Recordable) {name : String} {rule : Rule}
    (hrule : g.rule? name = some rule) {body : State Recorder → Outcome Recorder}
    {st : State Recorder} (hst : st.Settled source)
    (hbody : Follows g source rule.body (st.enter rule) (body (st.enter rule))) :
    Follows g source (.rule name) st
      (Matching.named (Recorder.observer source) rule body st) := by
  rw [Matching.named]
  rcases houtcome : body (st.enter rule) with ⟨verdict, last⟩
  rw [houtcome] at hbody
  cases verdict with
  | matched =>
      obtain ⟨parts, hparts, hreach⟩ := hbody
      have hleft : ((last.leave rule).announce (Recorder.observer source) rule st.offset).left
          source = last.left source := by
        rw [left, State.offset_eq (walk_announce source _ _ _)]
        rfl
      have hwatched : Recorder.watches rule.name = true → Tree.textOfAll parts ≠ [] := by
        intro hwatches
        exact hparts.toMatch.text_ne_nil hg.toSound
          (hg.watched rule (Grammar.mem_of_rule? hrule) hwatches)
      exact ⟨[.node rule parts], hleft.symm ▸ .rule hrule hparts,
        reaches_announce hst hreach hwatched⟩
  | failed =>
      have hwalk : (last.leave rule).walk = st.walk :=
        calc (last.leave rule).walk = ((st.enter rule).leave rule).walk :=
              congrArg (Walk.leave · rule) hbody.2.walk
          _ = st.walk := walk_leave_enter st rule
      exact ⟨.rule hrule hbody.1, hwalk, hbody.2.observed⟩
  | stopped stop => exact hbody.of_stopped fun h => .rule hrule h

/-- A match of a grammar with the recorder attached. -/
def Grammar.recording (g : Grammar) (source : Source) : Setting Recorder :=
  ⟨source.text, g.rule?, g.isLinked, Recorder.observer source⟩

/-- A loop of at least one round. -/
theorem follows_plus (hg : g.Sound) {depth : Nat} {site : Site} {p : Pattern}
    (hp : p.nullable hg.traits.nullable = false)
    (hbody : ∀ st, st.Settled source →
      Follows g source p st (Matching.run (g.recording source) depth p st))
    {st : State Recorder} (hst : st.Settled source) :
    Follows g source (.plus site p) st
      (Matching.run (g.recording source) (depth + 1) (.plus site p) st) := by
  have hround := hbody st hst
  simp only [Matching.run]
  rcases houtcome : Matching.run (g.recording source) depth p st with ⟨verdict, next⟩
  rw [houtcome] at hround
  cases verdict with
  | matched =>
      obtain ⟨parts, hparts, hreach⟩ := hround
      rw [List.nil_append] at hreach
      have hrounds : source.text.size < next.offset + Matching.roundLimit source.text := by
        rw [Matching.roundLimit]
        omega
      have hothers : Tracks g source (.star site p) st ([] ++ parts) next _ :=
        (follows_repeated hg hp hbody hreach.settled hrounds).of_follows hreach
          (verdict_repeated_ne_failed (Recorder.observer source)
            (Matching.run (g.recording source) depth p) (Matching.roundLimit source.text) next)
      exact hothers.after fun _ => .plusMore hparts
  | failed => exact ⟨.plusStop hround.1 id, hround.2⟩
  | stopped stop => exact hround.of_stopped fun h => .plusStop h id

/-- The matcher follows derivations. -/
theorem follows_run (hg : g.Recordable) (depth : Nat) {p : Pattern}
    (hp : p.sound hg.traits = true) {st : State Recorder} (hst : st.Settled source) :
    Follows g source p st (Matching.run (g.recording source) depth p st) := by
  induction depth generalizing p st with
  | zero => exact .inl rfl
  | succ depth ih =>
      have hstep : ∀ p, p.sound hg.traits = true → ∀ st : State Recorder, st.Settled source →
          Follows g source p st (Matching.run (g.recording source) depth p st) :=
        fun p hp st hst => ih hp hst
      have hrounds : source.text.size < st.offset + Matching.roundLimit source.text := by
        rw [Matching.roundLimit]
        omega
      cases p with
      | terminal t => exact follows_terminal (.of_bounded hp) hst
      | seq items =>
          exact tracks_sequence hg.toSound hstep hst hp (Reaches.refl hst) (.inr rfl)
      | choice alternatives =>
          exact follows_choice hstep hst hp ⟨rfl, Recorder.Agrees.refl _⟩
      | star site body =>
          simp only [Pattern.sound, Bool.and_eq_true, Bool.not_eq_true'] at hp
          exact follows_repeated hg.toSound hp.1.1 (hstep body hp.2) hst hrounds
      | plus site body =>
          simp only [Pattern.sound, Bool.and_eq_true, Bool.not_eq_true'] at hp
          exact follows_plus hg.toSound hp.1.1 (hstep body hp.2) hst
      | opt body => exact follows_opt hst (hstep body hp st hst)
      | atMost count body =>
          simp only [Pattern.sound, Bool.and_eq_true] at hp
          exact (follows_repeatedAtMost (hstep body hp.2) rfl hst).1
      | lookahead negated body =>
          simp only [Pattern.sound, Bool.and_eq_true, Bool.not_eq_true'] at hp
          exact follows_lookahead hg.toSound hp.1 hst
            (ih hp.2 ⟨hst.offset_le, hst.anchored, hst.ordered, hst.before⟩)
      | skipTo stop =>
          exact tracks_skipped (hstep stop hp) hst (Reaches.refl hst) rfl hrounds
      | repeatUntil site stop body =>
          simp only [Pattern.sound, Bool.and_eq_true, Bool.not_eq_true'] at hp
          exact tracks_repeatedUntil hg.toSound hp.1.1.1 hp.1.1.2 (hstep stop hp.1.2)
            (hstep body hp.2) hst (Reaches.refl hst) rfl hrounds
      | must body => exact follows_committed (fun _ => body.describe) (hstep body hp st hst)
      | rule name =>
          obtain ⟨-, rule, hrule⟩ := hg.defined name hp
          have hentered : (st.enter rule).Settled source :=
            ⟨hst.offset_le, hst.anchored.enter rule, hst.ordered, hst.before⟩
          have hfound : (g.recording source).rule? name = some rule := hrule
          simp only [Matching.run, hfound]
          exact follows_named hg hrule hst
            (ih (hg.sound rule (Grammar.mem_of_rule? hrule)) hentered)
      | ref site name =>
          simp only [Pattern.sound, Bool.and_eq_true, Option.isNone_iff_eq_none] at hp
          obtain ⟨rfl, hname⟩ := hp
          obtain ⟨hlinked, -⟩ := hg.defined name hname
          rw [Matching.run]
          change Follows g source (.ref none name) st
            (if g.isLinked none name then Matching.run (g.recording source) depth (.rule name) st
              else _)
          rw [if_pos hlinked]
          have hinner := ih (p := .rule name) hname hst
          exact hinner.imp fun a ha => .ref hlinked ha

end CartLua
