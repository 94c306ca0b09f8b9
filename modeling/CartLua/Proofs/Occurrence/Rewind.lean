import CartLua.Occurrence.Recorder

/-!
# Taking back what was recorded

A log is kept in order, so dropping the entries at or after an offset drops all of
them.  What was recorded since the matcher passed an offset can therefore be taken
back by one trim, as long as none of it begins before that offset.
-/

namespace CartLua

namespace OffsetLog

variable {α : Type} [Positioned α] {log : OffsetLog α}

/-- Whether the entries are in order. -/
def Ordered (log : OffsetLog α) : Prop :=
  log.lastFirst.Pairwise fun later earlier => Positioned.offset earlier ≤ Positioned.offset later

/-- Whether every entry begins before an offset. -/
def Before (log : OffsetLog α) (offset : Int) : Prop :=
  ∀ entry ∈ log.lastFirst, Positioned.offset entry < offset

theorem ordered_empty : (empty : OffsetLog α).Ordered := List.Pairwise.nil

theorem before_empty (offset : Int) : (empty : OffsetLog α).Before offset := by
  intro entry hentry
  cases hentry

theorem ordered_insertLast {entry : α} {entries : List α}
    (h : entries.Pairwise fun later earlier =>
      Positioned.offset earlier ≤ Positioned.offset later) :
    (insertLast entry entries).Pairwise fun later earlier =>
      Positioned.offset earlier ≤ Positioned.offset later := by
  induction entries with
  | nil => exact List.pairwise_singleton _ _
  | cons last rest ih =>
      have hrest := List.pairwise_cons.mp h
      rw [insertLast]
      split
      · rename_i hlt
        have hothers : ∀ other ∈ insertLast entry rest,
            Positioned.offset other ≤ Positioned.offset last := by
          intro other hother
          rcases List.mem_cons.mp ((insertLast_perm entry rest).mem_iff.mp hother) with rfl | hother
          · exact Int.le_of_lt hlt
          · exact hrest.1 other hother
        exact List.pairwise_cons.mpr ⟨hothers, ih hrest.2⟩
      · rename_i hlt
        have hle := Int.not_lt.mp hlt
        have hothers : ∀ other ∈ last :: rest,
            Positioned.offset other ≤ Positioned.offset entry := by
          intro other hother
          rcases List.mem_cons.mp hother with rfl | hother
          · exact hle
          · exact Int.le_trans (hrest.1 other hother) hle
        exact List.pairwise_cons.mpr ⟨hothers, h⟩

/-- Recording keeps the entries in order. -/
theorem Ordered.record (h : log.Ordered) (entry : α) : (log.record entry).Ordered :=
  ordered_insertLast h

/-- Trimming keeps the entries in order. -/
theorem Ordered.trim (h : log.Ordered) (offset : Int) : (log.trim offset).Ordered :=
  h.sublist (trim_suffix log offset).sublist

theorem Before.record {offset : Int} (h : log.Before offset) {entry : α}
    (hentry : Positioned.offset entry < offset) : (log.record entry).Before offset := by
  intro other hother
  rcases List.mem_cons.mp ((insertLast_perm entry log.lastFirst).mem_iff.mp hother) with
    rfl | hother
  · exact hentry
  · exact h other hother

theorem Before.mono {offset later : Int} (h : log.Before offset) (hle : offset ≤ later) :
    log.Before later :=
  fun entry hentry => Int.lt_of_lt_of_le (h entry hentry) hle

/-- Nothing is dropped from a log that ends before the offset. -/
theorem Before.trim_eq {offset : Int} (h : log.Before offset) : log.trim offset = log := by
  have hentries : log.lastFirst.dropWhile (fun entry => offset ≤ Positioned.offset entry) =
      log.lastFirst := by
    cases hlast : log.lastFirst with
    | nil => rfl
    | cons last rest =>
        have hlt := h last (hlast ▸ List.mem_cons_self)
        rw [List.dropWhile_cons_of_neg (by simpa using hlt)]
  rw [trim, hentries]

theorem dropWhile_insertLast {entry : α} {entries : List α} {offset : Int}
    (hentry : offset ≤ Positioned.offset entry) :
    (insertLast entry entries).dropWhile (fun e => offset ≤ Positioned.offset e) =
      entries.dropWhile fun e => offset ≤ Positioned.offset e := by
  induction entries with
  | nil => simp [insertLast, hentry]
  | cons last rest ih =>
      rw [insertLast]
      split
      · rename_i hlt
        have hlast : offset ≤ Positioned.offset last :=
          Int.le_trans hentry (Int.le_of_lt hlt)
        rw [List.dropWhile_cons_of_pos (by simpa using hlast), ih,
          List.dropWhile_cons_of_pos (by simpa using hlast)]
      · rw [List.dropWhile_cons_of_pos (by simpa using hentry)]

/-- An entry at or after the offset leaves no trace of itself when the log is
trimmed. -/
theorem trim_record {entry : α} {offset : Int} (hentry : offset ≤ Positioned.offset entry) :
    (log.record entry).trim offset = log.trim offset := by
  rw [trim, record, dropWhile_insertLast hentry, trim]

theorem takeWhile_eq_filter {entries : List α} {stop : Int}
    (h : entries.Pairwise fun a b => Positioned.offset a ≤ Positioned.offset b) :
    entries.takeWhile (fun entry => Positioned.offset entry < stop) =
      entries.filter fun entry => Positioned.offset entry < stop := by
  induction entries with
  | nil => rfl
  | cons entry entries ih =>
      rw [List.pairwise_cons] at h
      by_cases hentry : Positioned.offset entry < stop
      · rw [List.takeWhile_cons_of_pos (by simpa using hentry), ih h.2,
          List.filter_cons_of_pos (by simpa using hentry)]
      · rw [List.takeWhile_cons_of_neg (by simpa using hentry)]
        symm
        apply List.filter_eq_nil_iff.mpr
        intro other hother
        rcases List.mem_cons.mp hother with rfl | hother
        · simpa using hentry
        · have hle := h.1 other hother
          simp only [decide_eq_true_eq]
          omega

theorem dropWhile_eq_filter {entries : List α} {start : Int}
    (h : entries.Pairwise fun a b => Positioned.offset a ≤ Positioned.offset b) :
    entries.dropWhile (fun entry => Positioned.offset entry < start) =
      entries.filter fun entry => start ≤ Positioned.offset entry := by
  induction entries with
  | nil => rfl
  | cons entry entries ih =>
      have htail := List.pairwise_cons.mp h
      by_cases hentry : Positioned.offset entry < start
      · rw [List.dropWhile_cons_of_pos (by simpa using hentry), ih htail.2,
          List.filter_cons_of_neg (by simpa using hentry)]
      · rw [List.dropWhile_cons_of_neg (by simpa using hentry)]
        symm
        apply List.filter_eq_self.mpr
        intro other hother
        rcases List.mem_cons.mp hother with rfl | hother
        · simpa using hentry
        · have hle := htail.1 other hother
          simp only [decide_eq_true_eq]
          omega

/-- The entries of an ordered log, first to last. -/
theorem Ordered.pairwise_toList (h : log.Ordered) :
    log.toList.Pairwise fun a b => Positioned.offset a ≤ Positioned.offset b :=
  List.pairwise_reverse.mpr h

/-- The entries between two offsets are those that begin there. -/
theorem Ordered.between_eq_filter (h : log.Ordered) (start stop : Int) :
    log.between start stop = (log.toList.filter fun entry => start ≤ Positioned.offset entry).filter
      fun entry => Positioned.offset entry < stop := by
  rw [between, dropWhile_eq_filter h.pairwise_toList]
  exact takeWhile_eq_filter (h.pairwise_toList.filter _)

theorem filter_insertLast {p : α → Bool} {entry : α} (hentry : p entry = false)
    (entries : List α) : (insertLast entry entries).filter p = entries.filter p := by
  induction entries with
  | nil => simp [insertLast, hentry]
  | cons last rest ih =>
      rw [insertLast]
      split
      · rw [List.filter_cons, List.filter_cons, ih]
      · rw [List.filter_cons_of_neg (by simp [hentry])]

/-- An entry is not among those before its own offset. -/
theorem Ordered.between_record (h : log.Ordered) {entry : α} {start stop : Int}
    (hentry : stop ≤ Positioned.offset entry) :
    (log.record entry).between start stop = log.between start stop := by
  rw [(h.record entry).between_eq_filter, h.between_eq_filter, List.filter_filter,
    List.filter_filter, OffsetLog.toList, OffsetLog.record, OffsetLog.toList, List.filter_reverse,
    List.filter_reverse, filter_insertLast]
  simp only [Bool.and_eq_false_iff, decide_eq_false_iff_not]
  exact .inl (Int.not_lt.mpr hentry)

end OffsetLog

namespace Recorder

/-- Whether two recorders hold the same logs.  They may differ in what they have
seen and dropped. -/
structure Agrees (a b : Recorder) : Prop where
  log : ∀ kind, a.log kind = b.log kind
  lexemes : a.lexemes = b.lexemes

namespace Agrees

variable {a b c : Recorder}

theorem refl (a : Recorder) : a.Agrees a := ⟨fun _ => rfl, rfl⟩

theorem trans (hab : a.Agrees b) (hbc : b.Agrees c) : a.Agrees c :=
  ⟨fun kind => (hab.log kind).trans (hbc.log kind), hab.lexemes.trans hbc.lexemes⟩

theorem trim (h : a.Agrees b) (offset : Int) : (a.trim offset).Agrees (b.trim offset) where
  log kind := by rw [log_trim, log_trim, h.log kind]
  lexemes := congrArg (OffsetLog.trim · offset) h.lexemes

end Agrees

/-- Whether all logs are in order. -/
structure Ordered (recorder : Recorder) : Prop where
  log : ∀ kind, (recorder.log kind).Ordered
  lexemes : recorder.lexemes.Ordered

/-- Whether everything recorded begins before an offset. -/
structure Before (recorder : Recorder) (offset : Int) : Prop where
  log : ∀ kind, (recorder.log kind).Before offset
  lexemes : recorder.lexemes.Before offset

theorem ordered_empty : empty.Ordered where
  log kind := by cases kind <;> exact OffsetLog.ordered_empty
  lexemes := OffsetLog.ordered_empty

theorem before_empty (offset : Int) : empty.Before offset where
  log kind := by cases kind <;> exact OffsetLog.before_empty offset
  lexemes := OffsetLog.before_empty offset

theorem Ordered.of_agrees {a b : Recorder} (hb : b.Ordered) (h : a.Agrees b) : a.Ordered where
  log kind := h.log kind ▸ hb.log kind
  lexemes := h.lexemes ▸ hb.lexemes

theorem Before.of_agrees {a b : Recorder} {offset : Int} (hb : b.Before offset)
    (h : a.Agrees b) : a.Before offset where
  log kind := h.log kind ▸ hb.log kind
  lexemes := h.lexemes ▸ hb.lexemes

theorem Before.mono {a : Recorder} {offset later : Int} (h : a.Before offset)
    (hle : offset ≤ later) : a.Before later where
  log kind := (h.log kind).mono hle
  lexemes := h.lexemes.mono hle

/-- Nothing is taken back from a recorder that is before the offset. -/
theorem Before.trim_agrees {a : Recorder} {offset : Int} (h : a.Before offset) :
    (a.trim offset).Agrees a where
  log kind := by rw [log_trim, (h.log kind).trim_eq]
  lexemes := h.lexemes.trim_eq

/-- Whether a rule is one that the recorder looks out for. -/
def watches (rule : String) : Bool :=
  (OccurrenceKind.ofName? rule).isSome || (lexemeKind? rule).isSome

/-- Be told of a capture. -/
def see (source : Source) (recorder : Recorder) (c : Capture) : Recorder :=
  match (observer source).onMatch c.rule with
  | some act => act c recorder
  | none => recorder

/-- Be told of several captures in a row. -/
def seeAll (source : Source) (recorder : Recorder) (cs : List Capture) : Recorder :=
  cs.foldl (see source) recorder

theorem ofName?_eq_some {name : String} {kind : OccurrenceKind} :
    OccurrenceKind.ofName? name = some kind ↔ name = kind.name := by
  constructor
  · intro h
    have hname := List.find?_some h
    exact (beq_iff_eq.mp hname).symm
  · rintro rfl
    exact OccurrenceKind.ofName?_name kind

theorem lexemeKind?_name (kind : OccurrenceKind) : lexemeKind? kind.name = none := by
  cases kind <;> decide

@[simp]
theorem log_addLexeme (recorder : Recorder) (kind : LexemeKind) (c : Capture)
    (other : OccurrenceKind) : (addLexeme kind c recorder).log other = recorder.log other := by
  cases other <;> rfl

@[simp]
theorem lexemes_updateLog (recorder : Recorder) (kind : OccurrenceKind)
    (change : OffsetLog Occurrence → OffsetLog Occurrence) :
    (recorder.updateLog kind change).lexemes = recorder.lexemes := by
  cases kind <;> rfl

theorem see_eq (source : Source) (recorder : Recorder) (c : Capture) :
    recorder.see source c =
      match OccurrenceKind.ofName? c.rule with
      | some kind => addOccurrence source kind c recorder
      | none =>
          match lexemeKind? c.rule with
          | some kind => addLexeme kind c recorder
          | none => recorder := by
  simp only [see, observer]
  cases OccurrenceKind.ofName? c.rule with
  | some kind => rfl
  | none =>
      cases lexemeKind? c.rule with
      | some kind => rfl
      | none => rfl

/-- A log takes what its own rule captured. -/
theorem log_see (source : Source) (recorder : Recorder) (c : Capture) (kind : OccurrenceKind) :
    (recorder.see source c).log kind =
      if c.rule = kind.name then (recorder.log kind).record (recorder.occurrence source kind c)
      else recorder.log kind := by
  rw [see_eq]
  cases hkind : OccurrenceKind.ofName? c.rule with
  | none =>
      have hne : c.rule ≠ kind.name := by
        intro heq
        rw [heq, OccurrenceKind.ofName?_name] at hkind
        cases hkind
      rw [if_neg hne]
      cases lexemeKind? c.rule with
      | none => rfl
      | some lexeme => exact log_addLexeme recorder lexeme c kind
  | some found =>
      have hname := ofName?_eq_some.mp hkind
      by_cases hfound : kind = found
      · subst hfound
        rw [if_pos hname]
        exact log_updateLog_self recorder kind _
      · have hne : c.rule ≠ kind.name := by
          intro heq
          rw [heq, OccurrenceKind.ofName?_name] at hkind
          exact hfound (Option.some.inj hkind)
        rw [if_neg hne]
        exact log_updateLog_of_ne recorder _ hfound

/-- The lexeme log takes what comments and strings captured. -/
theorem lexemes_see (source : Source) (recorder : Recorder) (c : Capture) :
    (recorder.see source c).lexemes =
      match lexemeKind? c.rule with
      | some kind => recorder.lexemes.record ⟨kind, c.start, c.stop⟩
      | none => recorder.lexemes := by
  rw [see_eq]
  cases hkind : OccurrenceKind.ofName? c.rule with
  | none => cases lexemeKind? c.rule <;> rfl
  | some found =>
      rw [ofName?_eq_some.mp hkind, lexemeKind?_name]
      exact lexemes_updateLog recorder found _

theorem occurrence_congr {a b : Recorder} (h : a.lexemes = b.lexemes) (source : Source)
    (kind : OccurrenceKind) (c : Capture) :
    a.occurrence source kind c = b.occurrence source kind c := by
  rw [occurrence, occurrence, h]

theorem Agrees.see {a b : Recorder} (h : a.Agrees b) (source : Source) (c : Capture) :
    (a.see source c).Agrees (b.see source c) where
  log kind := by
    rw [log_see, log_see, h.log kind, occurrence_congr h.lexemes]
  lexemes := by rw [lexemes_see, lexemes_see, h.lexemes]

theorem Agrees.seeAll {a b : Recorder} (h : a.Agrees b) (source : Source) (cs : List Capture) :
    (a.seeAll source cs).Agrees (b.seeAll source cs) := by
  induction cs generalizing a b with
  | nil => exact h
  | cons c cs ih => exact ih (h.see source c)

theorem seeAll_append (source : Source) (recorder : Recorder) (as bs : List Capture) :
    recorder.seeAll source (as ++ bs) = (recorder.seeAll source as).seeAll source bs :=
  List.foldl_append

theorem Ordered.see {a : Recorder} (h : a.Ordered) (source : Source) (c : Capture) :
    (a.see source c).Ordered where
  log kind := by
    rw [log_see]
    split
    · exact (h.log kind).record _
    · exact h.log kind
  lexemes := by
    rw [lexemes_see]
    split
    · exact h.lexemes.record _
    · exact h.lexemes

theorem Ordered.seeAll {a : Recorder} (h : a.Ordered) (source : Source) (cs : List Capture) :
    (a.seeAll source cs).Ordered := by
  induction cs generalizing a with
  | nil => exact h
  | cons c cs ih => exact ih (h.see source c)

theorem watches_of_ofName? {rule : String} {kind : OccurrenceKind} (h : rule = kind.name) :
    watches rule = true := by
  rw [watches, h, OccurrenceKind.ofName?_name]
  rfl

theorem Before.see {a : Recorder} {offset : Int} (h : a.Before offset) (source : Source)
    {c : Capture} (hc : watches c.rule = true → c.start < offset) :
    (a.see source c).Before offset where
  log kind := by
    rw [log_see]
    split
    · rename_i hrule
      exact (h.log kind).record (hc (watches_of_ofName? hrule))
    · exact h.log kind
  lexemes := by
    rw [lexemes_see]
    split
    · rename_i kind hkind
      exact h.lexemes.record (hc (by simp [watches, hkind]))
    · exact h.lexemes

/-- A capture at or after the offset is taken back by a trim. -/
theorem trim_see {offset : Int} (source : Source) (a : Recorder) {c : Capture}
    (hc : offset ≤ c.start) : ((a.see source c).trim offset).Agrees (a.trim offset) where
  log kind := by
    rw [log_trim, log_trim, log_see]
    split
    · exact OffsetLog.trim_record hc
    · rfl
  lexemes := by
    change ((a.see source c).lexemes.trim offset) = a.lexemes.trim offset
    rw [lexemes_see]
    split
    · exact OffsetLog.trim_record hc
    · rfl

/-- So are several of them. -/
theorem trim_seeAll {offset : Int} (source : Source) (a : Recorder) {cs : List Capture}
    (hcs : ∀ c ∈ cs, offset ≤ c.start) :
    ((a.seeAll source cs).trim offset).Agrees (a.trim offset) := by
  induction cs generalizing a with
  | nil => exact Agrees.refl _
  | cons c cs ih =>
      exact (ih (a.see source c) fun d hd => hcs d (List.mem_cons_of_mem c hd)).trans
        (trim_see source a (hcs c List.mem_cons_self))

end Recorder

end CartLua
