import CartLua.Proofs.Derivation.Remnants
import CartLua.Proofs.Fix.EndKeyword
import CartLua.Proofs.Lexical.CaseFolding
import CartLua.Proofs.Matching.StopReasons

/-!
# Numerals

A numeral is a mantissa, which is digits with an optional fraction or a fraction alone, and perhaps
an exponent.  It is read by longest match, but not every attempt can be taken back: behind the mark
of a hexadecimal numeral, a point without digits before it and the mark of an exponent, the reader
has committed itself, and a text that does not go on with a digit is in error there.  Otherwise what
is read is the longest prefix that is a numeral.
-/

namespace CartLua

open Dialect

/-! ## Runs of characters -/

/-- What a text begins with, if it is of characters of a class, lies in the run of them. -/
theorem run_of_append_eq {chars front more run t : List Char} (hfront : ∀ c ∈ front, c ∈ chars)
    (ht : StartsOutside chars t) (h : front ++ more = run ++ t) :
    ∃ others, run = front ++ others ∧ more = others ++ t := by
  induction front generalizing run with
  | nil => exact ⟨run, rfl, h⟩
  | cons c front ih =>
      obtain ⟨hc, hfront⟩ := List.forall_mem_cons.mp hfront
      cases run with
      | nil =>
          rw [List.nil_append, List.cons_append] at h
          exact absurd hc (startsOutside_cons.mp (h ▸ ht))
      | cons d run =>
          obtain ⟨rfl, htail⟩ := List.cons.inj h
          obtain ⟨others, rfl, rfl⟩ := ih hfront htail
          exact ⟨others, rfl, rfl⟩

/-- Every text begins with a run of characters of a class that cannot be longer. -/
theorem exists_run (chars s : List Char) :
    ∃ run t, s = run ++ t ∧ (∀ c ∈ run, c ∈ chars) ∧ StartsOutside chars t := by
  induction s with
  | nil => exact ⟨[], [], rfl, nofun, startsOutside_nil⟩
  | cons c s ih =>
      by_cases hc : c ∈ chars
      · obtain ⟨run, t, rfl, hrun, ht⟩ := ih
        exact ⟨c :: run, t, rfl, List.forall_mem_cons.mpr ⟨hc, hrun⟩, ht⟩
      · exact ⟨[], c :: s, rfl, nofun, startsOutside_cons.mpr hc⟩

theorem StartsOutside.mono {chars others s : List Char} (h : StartsOutside chars s)
    (hsub : ∀ c ∈ others, c ∈ chars) : StartsOutside others s :=
  fun c hc hmem => h c hc (hsub c hmem)

/-- Whether a prefix of a text is the longest one of its kind. -/
structure LongestPrefix (P : List Char → Prop) (taken s : List Char) : Prop where
  holds : P taken
  isPrefix : taken <+: s
  longest : ∀ other, P other → other <+: s → other.length ≤ taken.length

namespace Numeral

/-! ## What numerals are -/

/-- The digits of a numeral and the marks of its exponent. -/
structure Radix where
  digits : String
  marks : String
  point_not_mem : '.' ∉ digits.toList
  marks_apart : ∀ c ∈ marks.toList, c ∉ '.' :: digits.toList

/-- The radix of decimal numerals. -/
def ten : Radix := ⟨digits, "eE", by decide, forall_mem_of_all (by decide)⟩

/-- The radix of hexadecimal numerals. -/
def sixteen : Radix := ⟨hexDigits, "pP", by decide, forall_mem_of_all (by decide)⟩

/-- Digits with an optional fraction, or a fraction alone. -/
inductive Mantissa (radix : Radix) : List Char → Prop
  | whole {whole : List Char} (nonempty : whole ≠ []) (all : ∀ c ∈ whole, c ∈ radix.digits.toList) :
      Mantissa radix whole
  | pointed {whole fraction : List Char} (nonempty : whole ≠ [])
      (all : ∀ c ∈ whole, c ∈ radix.digits.toList)
      (all_fraction : ∀ c ∈ fraction, c ∈ radix.digits.toList) :
      Mantissa radix (whole ++ '.' :: fraction)
  | fraction {fraction : List Char} (nonempty : fraction ≠ [])
      (all_fraction : ∀ c ∈ fraction, c ∈ radix.digits.toList) :
      Mantissa radix ('.' :: fraction)

/-- The sign of an exponent, which may be left out. -/
def Sign (sign : List Char) : Prop := sign = [] ∨ ∃ c ∈ "+-".toList, sign = [c]

/-- A mark, perhaps a sign, and decimal digits. -/
inductive Exponent (radix : Radix) : List Char → Prop
  | scaled {mark : Char} {sign number : List Char} (mark_mem : mark ∈ radix.marks.toList)
      (sign_ok : Sign sign) (nonempty : number ≠ [])
      (all : ∀ c ∈ number, c ∈ digits.toList) : Exponent radix (mark :: (sign ++ number))

/-- A mantissa, perhaps with an exponent. -/
inductive Plain (radix : Radix) : List Char → Prop
  | mantissa {mantissa : List Char} (h : Mantissa radix mantissa) : Plain radix mantissa
  | scaled {mantissa exponent : List Char} (h : Mantissa radix mantissa)
      (scale : Exponent radix exponent) : Plain radix (mantissa ++ exponent)

/-- The letters that make a zero the mark of a hexadecimal numeral. -/
def hexLetters : List Char := ['x', 'X']

end Numeral

/-- What a numeral is. -/
inductive IsNumeral : List Char → Prop
  | decimal {cs : List Char} (h : Numeral.Plain Numeral.ten cs) : IsNumeral cs
  | hexadecimal {x : Char} {cs : List Char} (mark : x ∈ Numeral.hexLetters)
      (h : Numeral.Plain Numeral.sixteen cs) : IsNumeral ('0' :: x :: cs)

namespace Numeral

/-- Whether a text begins with a decimal digit or a point. -/
def Begins (s : List Char) : Prop := ∃ c ∈ s.head?, c ∈ '.' :: digits.toList

/-- Whether the longest mantissa at the beginning of a text is followed by the mark of an exponent,
and the mark not by an optional sign and a decimal digit. -/
def CutOff (radix : Radix) (s : List Char) : Prop :=
  ∃ mantissa mark rest, LongestPrefix (Mantissa radix) mantissa s ∧ s = mantissa ++ mark :: rest ∧
    mark ∈ radix.marks.toList ∧
    ¬∃ sign c more, Sign sign ∧ c ∈ digits.toList ∧ rest = sign ++ c :: more

/-- The texts in which a numeral begins that is in error. -/
inductive Malformed : List Char → Prop
  | empty {x : Char} {s : List Char} (mark : x ∈ hexLetters)
      (none : ∀ mantissa, Mantissa sixteen mantissa → ¬mantissa <+: s) :
      Malformed ('0' :: x :: s)
  | point {s : List Char} (none : StartsOutside digits.toList s) : Malformed ('.' :: s)
  | decimal {s : List Char} (cut : CutOff ten s) : Malformed s
  | hexadecimal {x : Char} {s : List Char} (mark : x ∈ hexLetters) (cut : CutOff sixteen s) :
      Malformed ('0' :: x :: s)

/-! ## Mantissas -/

section

variable {radix : Radix} {g : Grammar} {m t e s : List Char} {x : Remnant}

/-- A mantissa before a text with which it does not go on. -/
inductive Reads (radix : Radix) : (mantissa rest : List Char) → Prop
  | whole {whole rest : List Char} (nonempty : whole ≠ [])
      (all : ∀ c ∈ whole, c ∈ radix.digits.toList)
      (ends : StartsOutside ('.' :: radix.digits.toList) rest) : Reads radix whole rest
  | pointed {whole fraction rest : List Char} (nonempty : whole ≠ [])
      (all : ∀ c ∈ whole, c ∈ radix.digits.toList)
      (all_fraction : ∀ c ∈ fraction, c ∈ radix.digits.toList)
      (ends : StartsOutside radix.digits.toList rest) :
      Reads radix (whole ++ '.' :: fraction) rest
  | fraction {fraction rest : List Char} (nonempty : fraction ≠ [])
      (all_fraction : ∀ c ∈ fraction, c ∈ radix.digits.toList)
      (ends : StartsOutside radix.digits.toList rest) : Reads radix ('.' :: fraction) rest

theorem Reads.mantissa (h : Reads radix m t) : Mantissa radix m := by
  cases h with
  | whole nonempty all _ => exact .whole nonempty all
  | pointed nonempty all all_fraction _ => exact .pointed nonempty all all_fraction
  | fraction nonempty all_fraction _ => exact .fraction nonempty all_fraction

/-- A mantissa is of digits and points. -/
theorem Mantissa.mem (h : Mantissa radix m) : ∀ c ∈ m, c ∈ '.' :: radix.digits.toList := by
  cases h with
  | whole _ all => exact fun c hc => List.mem_cons_of_mem _ (all c hc)
  | pointed _ all all_fraction =>
      intro c hc
      rcases List.mem_append.mp hc with hc | hc
      · exact List.mem_cons_of_mem _ (all c hc)
      · rcases List.mem_cons.mp hc with rfl | hc
        · exact List.mem_cons_self
        · exact List.mem_cons_of_mem _ (all_fraction c hc)
  | fraction _ all_fraction =>
      intro c hc
      rcases List.mem_cons.mp hc with rfl | hc
      · exact List.mem_cons_self
      · exact List.mem_cons_of_mem _ (all_fraction c hc)

/-- A text that begins with digits does not begin with a point. -/
theorem not_point_of_digits {whole more rest : List Char} (nonempty : whole ≠ [])
    (all : ∀ c ∈ whole, c ∈ radix.digits.toList) (h : whole ++ more = '.' :: rest) : False := by
  cases whole with
  | nil => exact nonempty rfl
  | cons c whole =>
      obtain ⟨rfl, -⟩ := List.cons.inj h
      exact radix.point_not_mem (all _ List.mem_cons_self)

/-- Digits before a point are all that there are. -/
theorem whole_of_point {whole run more t : List Char}
    (all : ∀ c ∈ whole, c ∈ radix.digits.toList) (all_run : ∀ c ∈ run, c ∈ radix.digits.toList)
    (ends : StartsOutside radix.digits.toList t) (h : whole ++ '.' :: more = run ++ t) :
    run = whole ∧ t = '.' :: more := by
  obtain ⟨others, rfl, hmore⟩ := run_of_append_eq all ends h
  cases others with
  | nil => exact ⟨List.append_nil _, hmore.symm⟩
  | cons c others =>
      obtain ⟨rfl, -⟩ := List.cons.inj hmore
      exact absurd (all_run _ (by simp)) radix.point_not_mem

/-- No mantissa goes further than the one that is read. -/
theorem Reads.longest {other more : List Char} (h : Reads radix m t)
    (hother : Mantissa radix other) (heq : other ++ more = m ++ t) :
    ∃ others, m = other ++ others ∧ more = others ++ t := by
  have hdigits : ∀ c ∈ radix.digits.toList, c ∈ '.' :: radix.digits.toList :=
    fun _ => List.mem_cons_of_mem _
  cases hother with
  | whole nonempty all =>
      cases h with
      | whole _ _ ends => exact run_of_append_eq all (ends.mono hdigits) heq
      | @pointed run fraction _ _ all_run _ _ =>
          have houtside : StartsOutside radix.digits.toList ('.' :: (fraction ++ t)) :=
            startsOutside_cons.mpr radix.point_not_mem
          rw [List.append_assoc, List.cons_append] at heq
          obtain ⟨others, rfl, rfl⟩ := run_of_append_eq all houtside heq
          exact ⟨others ++ '.' :: fraction, by simp, by simp⟩
      | fraction _ _ _ => exact (not_point_of_digits nonempty all heq).elim
  | @pointed whole other nonempty all all_other =>
      rw [List.append_assoc, List.cons_append] at heq
      cases h with
      | whole _ all_run ends =>
          obtain ⟨rfl, rfl⟩ := whole_of_point all all_run (ends.mono hdigits) heq
          exact absurd List.mem_cons_self (startsOutside_cons.mp ends)
      | @pointed run fraction _ _ all_run all_fraction ends =>
          have houtside : StartsOutside radix.digits.toList ('.' :: (fraction ++ t)) :=
            startsOutside_cons.mpr radix.point_not_mem
          rw [List.append_assoc, List.cons_append] at heq
          obtain ⟨rfl, hpoint⟩ := whole_of_point all all_run houtside heq
          obtain ⟨others, rfl, rfl⟩ :=
            run_of_append_eq all_other ends (List.cons.inj hpoint).2.symm
          exact ⟨others, by simp, rfl⟩
      | fraction _ _ _ => exact (not_point_of_digits nonempty all heq).elim
  | fraction nonempty all_other =>
      cases h with
      | whole nonempty_run all_run _ =>
          exact (not_point_of_digits nonempty_run all_run heq.symm).elim
      | pointed nonempty_run all_run _ _ =>
          rw [List.append_assoc] at heq
          exact (not_point_of_digits nonempty_run all_run heq.symm).elim
      | fraction _ _ ends =>
          obtain ⟨others, rfl, rfl⟩ := run_of_append_eq all_other ends (List.cons.inj heq).2
          exact ⟨others, rfl, rfl⟩

/-- Where a text goes on with what is in no mantissa, the mantissa before is the one that is
read. -/
theorem Reads.eq_of_mark {other more : List Char} {c : Char} (h : Reads radix m t)
    (hother : Mantissa radix other) (hc : c ∉ '.' :: radix.digits.toList)
    (heq : other ++ c :: more = m ++ t) : other = m ∧ c :: more = t := by
  obtain ⟨others, rfl, hmore⟩ := h.longest hother heq
  cases others with
  | nil => exact ⟨(List.append_nil _).symm, hmore⟩
  | cons d others =>
      obtain ⟨rfl, -⟩ := List.cons.inj hmore
      exact absurd (h.mantissa.mem _ (by simp)) hc

theorem Reads.longestPrefix (h : Reads radix m t) :
    LongestPrefix (Mantissa radix) m (m ++ t) where
  holds := h.mantissa
  isPrefix := List.prefix_append m t
  longest := by
    rintro other hother ⟨more, hmore⟩
    obtain ⟨others, rfl, -⟩ := h.longest hother hmore
    simp

/-- Where a text begins with a mantissa, the longest one is read. -/
theorem exists_reads {first more : List Char} (h : Mantissa radix first) (hs : s = first ++ more) :
    ∃ m t, s = m ++ t ∧ Reads radix m t := by
  obtain ⟨run, t, hrun, all_run, ends⟩ := exists_run radix.digits.toList s
  by_cases hnil : run = []
  · subst hnil
    -- No digit is in front, so the mantissa that is there is a fraction.
    have houtside : StartsOutside radix.digits.toList (first ++ more) := by
      rwa [← hs, hrun]
    cases h with
    | whole nonempty all =>
        obtain ⟨c, whole, rfl⟩ := List.exists_cons_of_ne_nil nonempty
        exact absurd (all c List.mem_cons_self) (startsOutside_cons.mp houtside)
    | pointed nonempty all _ =>
        obtain ⟨c, whole, rfl⟩ := List.exists_cons_of_ne_nil nonempty
        exact absurd (all c List.mem_cons_self) (startsOutside_cons.mp houtside)
    | @fraction fraction nonempty all_fraction =>
        obtain ⟨longer, rest, htail, all_longer, ends⟩ :=
          exists_run radix.digits.toList (fraction ++ more)
        obtain ⟨others, rfl, -⟩ := run_of_append_eq all_fraction ends htail
        refine ⟨'.' :: (fraction ++ others), rest, ?_,
          .fraction (by simp [nonempty]) all_longer ends⟩
        rw [hs, List.cons_append, htail, List.cons_append]
  · by_cases hpoint : StartsOutside ['.'] t
    · refine ⟨run, t, hrun, .whole hnil all_run fun c hc => ?_⟩
      rw [List.mem_cons, not_or]
      exact ⟨fun heq => hpoint c hc (heq ▸ List.mem_cons_self), ends c hc⟩
    · obtain ⟨rest, rfl⟩ : ∃ rest, t = '.' :: rest := by
        cases t with
        | nil => exact absurd startsOutside_nil hpoint
        | cons c rest =>
            rw [startsOutside_cons, List.mem_singleton, not_not] at hpoint
            exact ⟨rest, hpoint ▸ rfl⟩
      obtain ⟨fraction, rest, rfl, all_fraction, ends⟩ := exists_run radix.digits.toList rest
      exact ⟨run ++ '.' :: fraction, rest, by rw [hrun]; simp,
        .pointed hnil all_run all_fraction ends⟩

/-- A digit begins a mantissa, and so does a point before a digit. -/
theorem exists_mantissa (hbegins : ¬StartsOutside ('.' :: radix.digits.toList) s)
    (hpoint : ∀ rest, s = '.' :: rest → ¬StartsOutside radix.digits.toList rest) :
    ∃ first more, Mantissa radix first ∧ s = first ++ more := by
  cases s with
  | nil => exact absurd startsOutside_nil hbegins
  | cons c rest =>
      rw [startsOutside_cons, not_not, List.mem_cons] at hbegins
      rcases hbegins with rfl | hc
      · have hrest := hpoint rest rfl
        cases rest with
        | nil => exact absurd startsOutside_nil hrest
        | cons d rest =>
            rw [startsOutside_cons, not_not] at hrest
            exact ⟨['.', d], rest, .fraction (List.cons_ne_nil _ _) (by simpa using hrest), rfl⟩
      · exact ⟨[c], rest, .whole (List.cons_ne_nil _ _) (by simpa using hc), rfl⟩

/-! ## Exponents -/

/-- An exponent before a text with which it does not go on, or none before a text that does not
begin with a mark. -/
inductive ReadsScale (radix : Radix) : (exponent rest : List Char) → Prop
  | none {rest : List Char} (ends : StartsOutside radix.marks.toList rest) :
      ReadsScale radix [] rest
  | some {mark : Char} {sign number rest : List Char} (mark_mem : mark ∈ radix.marks.toList)
      (sign_ok : Sign sign) (nonempty : number ≠ []) (all : ∀ c ∈ number, c ∈ digits.toList)
      (ends : StartsOutside digits.toList rest) :
      ReadsScale radix (mark :: (sign ++ number)) rest

/-- A sign is told apart from the digits after it. -/
theorem sign_of_append_eq {sign other number more : List Char} (hsign : Sign sign)
    (hother : Sign other) {c d : Char} (hc : c ∈ digits.toList) (hd : d ∈ digits.toList)
    (h : sign ++ c :: number = other ++ d :: more) : sign = other := by
  have hapart : ∀ c ∈ "+-".toList, c ∉ digits.toList := forall_mem_of_all (by decide)
  rcases hsign with rfl | ⟨a, ha, rfl⟩
  · rcases hother with rfl | ⟨b, hb, rfl⟩
    · rfl
    · obtain ⟨rfl, -⟩ := List.cons.inj h
      exact absurd hc (hapart _ hb)
  · rcases hother with rfl | ⟨b, hb, rfl⟩
    · obtain ⟨rfl, -⟩ := List.cons.inj h
      exact absurd hd (hapart _ ha)
    · obtain ⟨rfl, -⟩ := List.cons.inj h
      rfl

/-- No exponent goes further than the one that is read. -/
theorem ReadsScale.longest {other more : List Char} (h : ReadsScale radix e t)
    (hother : Exponent radix other) (heq : other ++ more = e ++ t) : other.length ≤ e.length := by
  obtain @⟨mark, sign, number, mark_mem, sign_ok, nonempty, all⟩ := hother
  cases h with
  | none ends =>
      rw [List.nil_append] at heq
      exact absurd mark_mem (startsOutside_cons.mp (heq ▸ ends))
  | @some _ sign' number' _ _ sign_ok' nonempty' all' ends =>
      rw [List.cons_append, List.cons_append, List.append_assoc, List.append_assoc] at heq
      obtain ⟨-, htail⟩ := List.cons.inj heq
      obtain ⟨c, number, rfl⟩ := List.exists_cons_of_ne_nil nonempty
      obtain ⟨d, number', rfl⟩ := List.exists_cons_of_ne_nil nonempty'
      obtain rfl := sign_of_append_eq sign_ok sign_ok' (all c List.mem_cons_self)
        (all' d List.mem_cons_self) htail
      obtain ⟨others, hnumber, -⟩ := run_of_append_eq all ends (List.append_cancel_left htail)
      rw [hnumber]
      simp

/-- A text that begins with a sign and a digit has an exponent behind a mark. -/
theorem exists_readsScale (radix : Radix) (s : List Char) :
    (∃ e t, s = e ++ t ∧ ReadsScale radix e t) ∨
      ∃ mark rest, s = mark :: rest ∧ mark ∈ radix.marks.toList ∧
        ¬∃ sign c more, Sign sign ∧ c ∈ digits.toList ∧ rest = sign ++ c :: more := by
  by_cases hmark : StartsOutside radix.marks.toList s
  · exact .inl ⟨[], s, rfl, .none hmark⟩
  · cases s with
    | nil => exact absurd startsOutside_nil hmark
    | cons mark rest =>
        rw [startsOutside_cons, not_not] at hmark
        by_cases hnumber : ∃ sign c more, Sign sign ∧ c ∈ digits.toList ∧ rest = sign ++ c :: more
        · obtain ⟨sign, c, more, hsign, hc, rfl⟩ := hnumber
          obtain ⟨number, t, rfl, all, ends⟩ := exists_run digits.toList more
          exact .inl ⟨mark :: (sign ++ c :: number), t, by simp,
            .some hmark hsign (List.cons_ne_nil _ _) (List.forall_mem_cons.mpr ⟨hc, all⟩) ends⟩
        · exact .inr ⟨mark, rest, rfl, hmark, hnumber⟩

/-- What is read of a mantissa and an exponent is the longest prefix of this form. -/
theorem Reads.longest_plain (h : Reads radix m (e ++ t)) (hscale : ReadsScale radix e t) :
    LongestPrefix (Plain radix) (m ++ e) (m ++ (e ++ t)) where
  holds := by
    cases hscale with
    | none _ => exact (List.append_nil m).symm ▸ .mantissa h.mantissa
    | some mark_mem sign_ok nonempty all _ =>
        exact .scaled h.mantissa (.scaled mark_mem sign_ok nonempty all)
  isPrefix := ⟨t, List.append_assoc m e t⟩
  longest := by
    rintro other hother ⟨more, hmore⟩
    cases hother with
    | mantissa hmantissa =>
        obtain ⟨others, rfl, -⟩ := h.longest hmantissa hmore
        simp only [List.length_append]
        omega
    | @scaled mantissa exponent hmantissa hexponent =>
        obtain @⟨mark, sign, number, mark_mem, sign_ok, nonempty, all⟩ := hexponent
        rw [List.append_assoc, List.cons_append] at hmore
        obtain ⟨rfl, htail⟩ := h.eq_of_mark hmantissa (radix.marks_apart mark mark_mem) hmore
        have hlength := hscale.longest (.scaled mark_mem sign_ok nonempty all) htail
        simp only [List.length_append] at hlength ⊢
        omega

/-! ## What the patterns leave -/

theorem failed_many1 {chars : String} (h : StartsOutside chars.toList s) :
    Derives g (.many1 [.one chars]) s .failed :=
  .plusStop (failed_oneOf_iff.mpr h) id

/-- A choice is settled by an alternative that does not fail. -/
theorem leaves_choice {p : Pattern} {items : List Pattern} (h : Leaves g p s x)
    (hx : x ≠ .failed) : Leaves g (.choice (p :: items)) s x := by
  cases x with
  | rest t => exact .choice_here h
  | failed => exact absurd rfl hx
  | broken => exact .choiceHere h (by simp)

theorem takes_optional {p : Pattern} (h : Leaves g p s x) {t : List Char}
    (hx : x.orElse (.rest s) = .rest t) : Takes g (.opt p) s t := by
  have hopt := h.opt
  rw [hx] at hopt
  exact hopt

/-- Behind the mantissa that is read, the exponent decides. -/
theorem Reads.leaves (h : Reads radix m t) (hexponent : Leaves g (exponent radix.marks) t x)
    (hx : x ≠ .failed) : Leaves g (numeralOf (.one radix.digits) radix.marks) (m ++ t) x := by
  have hlast : Leaves g (.seq [exponent radix.marks]) t x := hexponent.seq_last
  cases h with
  | @whole whole _ nonempty all ends =>
      have hwhole : Takes g (.many1 [.one radix.digits]) (m ++ t) t :=
        takes_plus_oneOf.mpr ⟨m, nonempty, all, ends.mono fun _ => List.mem_cons_of_mem _, rfl⟩
      have hnone : Leaves g (.seq [.one ".", .many [.one radix.digits]]) t .failed :=
        .seq_failed (failed_oneOf_iff.mpr (ends.mono (by simp)))
      exact leaves_choice (.seq_cons hwhole (.seq_cons (takes_optional hnone rfl) hlast)) hx
  | @pointed whole fraction _ nonempty all all_fraction ends =>
      have hwhole : Takes g (.many1 [.one radix.digits]) (whole ++ '.' :: (fraction ++ t))
          ('.' :: (fraction ++ t)) :=
        takes_plus_oneOf.mpr ⟨whole, nonempty, all, startsOutside_cons.mpr radix.point_not_mem, rfl⟩
      have hfraction : Takes g (.many [.one radix.digits]) (fraction ++ t) t :=
        takes_star_oneOf.mpr ⟨fraction, all_fraction, ends, rfl⟩
      have hpoint : Leaves g (.seq [.one ".", .many [.one radix.digits]])
          ('.' :: (fraction ++ t)) (.rest t) :=
        .seq_cons (takes_oneOf.mpr ⟨'.', by simp, rfl⟩) (.seq_last hfraction)
      rw [List.append_assoc, List.cons_append]
      exact leaves_choice (.seq_cons hwhole (.seq_cons (takes_optional hpoint rfl) hlast)) hx
  | @fraction fraction _ nonempty all_fraction ends =>
      have hnone : Derives g (.many1 [.one radix.digits]) ('.' :: (fraction ++ t)) .failed :=
        failed_many1 (startsOutside_cons.mpr radix.point_not_mem)
      have hdigits : Takes g (.must (.many1 [.one radix.digits])) (fraction ++ t) t :=
        takes_must.mpr (takes_plus_oneOf.mpr ⟨fraction, nonempty, all_fraction, ends, rfl⟩)
      have hpoint : Takes g (.ifMust (.one ".") [.many1 [.one radix.digits]])
          ('.' :: (fraction ++ t)) t :=
        takes_seq_cons.mpr ⟨_, takes_oneOf.mpr ⟨'.', by simp, rfl⟩,
          takes_seq_cons.mpr ⟨t, hdigits, takes_seq_nil.mpr rfl⟩⟩
      exact .choice_next (.seq_failed hnone) (leaves_choice (.seq_cons hpoint hlast) hx)

/-- The sign before a digit is taken, if there is one. -/
theorem takes_sign {sign : List Char} (hsign : Sign sign) {c : Char} (hc : c ∈ digits.toList) :
    Takes g (.must (.optional [.one "+-"])) (sign ++ c :: s) (c :: s) := by
  have hapart : ∀ c ∈ digits.toList, c ∉ "+-".toList := forall_mem_of_all (by decide)
  rw [takes_must]
  rcases hsign with rfl | ⟨a, ha, rfl⟩
  · have hnone : Leaves g (.one "+-") (c :: s) .failed :=
      failed_oneOf_iff.mpr (startsOutside_cons.mpr (hapart c hc))
    exact takes_optional hnone rfl
  · have hsign : Leaves g (.one "+-") (a :: c :: s) (.rest (c :: s)) :=
      takes_oneOf.mpr ⟨a, ha, rfl⟩
    exact takes_optional hsign rfl

/-- The exponent that is read is taken. -/
theorem ReadsScale.takes (h : ReadsScale radix e t) :
    Takes g (exponent radix.marks) (e ++ t) t := by
  cases h with
  | none ends =>
      have hnone : Leaves g (.ifMust (.one radix.marks) [.optional [.one "+-"],
          .many1 [.one digits]]) t .failed := .seq_failed (failed_oneOf_iff.mpr ends)
      exact takes_optional hnone rfl
  | @some mark sign number _ mark_mem sign_ok nonempty all ends =>
      have hmark : Takes g (.one radix.marks) (mark :: (sign ++ (number ++ t)))
          (sign ++ (number ++ t)) := takes_oneOf.mpr ⟨mark, mark_mem, rfl⟩
      have hnumber : Takes g (.must (.many1 [.one digits])) (number ++ t) t :=
        takes_must.mpr (takes_plus_oneOf.mpr ⟨number, nonempty, all, ends, rfl⟩)
      have hsign : Takes g (.must (.optional [.one "+-"])) (sign ++ (number ++ t))
          (number ++ t) := by
        obtain ⟨c, number, rfl⟩ := List.exists_cons_of_ne_nil nonempty
        exact takes_sign sign_ok (all c List.mem_cons_self)
      have hscale : Leaves g (.ifMust (.one radix.marks) [.optional [.one "+-"],
          .many1 [.one digits]]) (mark :: (sign ++ (number ++ t))) (.rest t) :=
        .seq_cons hmark (.seq_cons hsign (.seq_last hnumber))
      rw [List.cons_append, List.append_assoc]
      exact takes_optional hscale rfl

/-- Behind a mark the exponent must go on. -/
theorem broken_exponent {mark : Char} (mark_mem : mark ∈ radix.marks.toList)
    (hnone : ¬∃ sign c more, Sign sign ∧ c ∈ digits.toList ∧ s = sign ++ c :: more) :
    Leaves g (exponent radix.marks) (mark :: s) .broken := by
  have hmark : Takes g (.one radix.marks) (mark :: s) s := takes_oneOf.mpr ⟨mark, mark_mem, rfl⟩
  obtain ⟨sign, rest, hsign, rfl, htaken⟩ : ∃ sign rest, Sign sign ∧ s = sign ++ rest ∧
      Takes g (.must (.optional [.one "+-"])) s rest := by
    by_cases houtside : StartsOutside "+-".toList s
    · have hfailed : Leaves g (.one "+-") s .failed := failed_oneOf_iff.mpr houtside
      exact ⟨[], s, .inl rfl, rfl, takes_must.mpr (takes_optional hfailed rfl)⟩
    · cases s with
      | nil => exact absurd startsOutside_nil houtside
      | cons a rest =>
          rw [startsOutside_cons, not_not] at houtside
          have ha : Leaves g (.one "+-") (a :: rest) (.rest rest) :=
            takes_oneOf.mpr ⟨a, houtside, rfl⟩
          exact ⟨[a], rest, .inr ⟨a, houtside, rfl⟩, rfl, takes_must.mpr (takes_optional ha rfl)⟩
  have hrest : StartsOutside digits.toList rest := by
    intro c hc hmem
    obtain ⟨more, rfl⟩ := List.head?_eq_some_iff.mp hc
    exact hnone ⟨sign, c, more, hsign, hmem, rfl⟩
  have hmiss : Leaves g (.many1 [.one digits]) rest .failed := failed_many1 hrest
  have hscale : Leaves g (.ifMust (.one radix.marks) [.optional [.one "+-"],
      .many1 [.one digits]]) (mark :: (sign ++ rest)) .broken :=
    .seq_cons hmark (.seq_cons htaken (.seq_broken hmiss.must))
  exact hscale.opt

/-! ## What numerals of a radix leave -/

theorem failed_numeralOf (h : StartsOutside ('.' :: radix.digits.toList) s) :
    Leaves g (numeralOf (.one radix.digits) radix.marks) s .failed := by
  have hdigits : StartsOutside radix.digits.toList s := h.mono fun _ => List.mem_cons_of_mem _
  have hpoint : Derives g (.one ".") s .failed := failed_oneOf_iff.mpr (h.mono (by simp))
  exact .choice_next (.seq_failed (failed_many1 hdigits))
    (.choice_last (.seq_failed (failed_ifMust_iff.mpr hpoint)))

/-- Behind a point there must be a digit. -/
theorem broken_numeralOf_point (h : StartsOutside radix.digits.toList s) :
    Leaves g (numeralOf (.one radix.digits) radix.marks) ('.' :: s) .broken := by
  have hdigits : StartsOutside radix.digits.toList ('.' :: s) :=
    startsOutside_cons.mpr radix.point_not_mem
  have hpoint : Takes g (.one ".") ('.' :: s) s := takes_oneOf.mpr ⟨'.', by simp, rfl⟩
  have hmiss : Leaves g (.many1 [.one radix.digits]) s .failed := failed_many1 h
  have hbroken : Leaves g (.ifMust (.one ".") [.many1 [.one radix.digits]]) ('.' :: s) .broken :=
    .seq_cons hpoint (.seq_broken hmiss.must)
  exact .choice_next (.seq_failed (failed_many1 hdigits)) (.choice_last (.seq_broken hbroken))

theorem broken_numeralOf_cutOff (h : CutOff radix s) :
    Leaves g (numeralOf (.one radix.digits) radix.marks) s .broken := by
  obtain ⟨mantissa, mark, rest, hlongest, hs, mark_mem, hnone⟩ := h
  obtain ⟨m, t, hread, hreads⟩ := exists_reads hlongest.holds hs
  obtain ⟨rfl, rfl⟩ := hreads.eq_of_mark hlongest.holds (radix.marks_apart mark mark_mem)
    (hs.symm.trans hread)
  exact hs ▸ hreads.leaves (broken_exponent mark_mem hnone) nofun

/-- Where nothing is in error, the longest numeral is taken. -/
theorem takes_numeralOf {first more : List Char} (hfirst : Mantissa radix first)
    (hs : s = first ++ more) (hcut : ¬CutOff radix s) :
    ∃ taken t, s = taken ++ t ∧ LongestPrefix (Plain radix) taken s ∧
      Takes g (numeralOf (.one radix.digits) radix.marks) s t := by
  obtain ⟨m, rest, rfl, hreads⟩ := exists_reads hfirst hs
  rcases exists_readsScale radix rest with ⟨e, t, rfl, hscale⟩ | ⟨mark, t, rfl, mark_mem, hnone⟩
  · have hexponent : Leaves g (exponent radix.marks) (e ++ t) (.rest t) := hscale.takes
    exact ⟨m ++ e, t, (List.append_assoc m e t).symm, hreads.longest_plain hscale,
      hreads.leaves hexponent nofun⟩
  · exact absurd ⟨m, mark, t, hreads.longestPrefix, rfl, mark_mem, hnone⟩ hcut

end

/-- Where there is no mantissa, there is no numeral, or one in error. -/
theorem leaves_of_no_mantissa {radix : Radix} {s : List Char}
    (h : ∀ mantissa, Mantissa radix mantissa → ¬mantissa <+: s) (g : Grammar) :
    ∃ x, Leaves g (numeralOf (.one radix.digits) radix.marks) s x ∧
      (x = .failed ∨ x = .broken) := by
  by_cases hbegins : StartsOutside ('.' :: radix.digits.toList) s
  · exact ⟨.failed, failed_numeralOf hbegins, .inl rfl⟩
  · by_cases hpoint : ∃ rest, s = '.' :: rest ∧ StartsOutside radix.digits.toList rest
    · obtain ⟨rest, rfl, hrest⟩ := hpoint
      exact ⟨.broken, broken_numeralOf_point hrest, .inr rfl⟩
    · obtain ⟨first, more, hfirst, rfl⟩ :=
        exists_mantissa hbegins fun rest hs hrest => hpoint ⟨rest, hs, hrest⟩
      exact absurd (List.prefix_append first more) (h first hfirst)

/-! ## The mark of hexadecimal numerals -/

/-- No run of letters reaches the zero or the `x`. -/
theorem misses_hexMark : ∀ image ∈ ([48, 120] : List Nat), ∀ run ∈ Text.CaseMap.lowerRuns,
    image - run.shift < run.first ∨ run.last < image - run.shift := by
  decide +kernel

/-- Only the zero itself becomes a zero, and only an `x` in either case becomes an `x`. -/
theorem of_lowerAt {before after : List Char} {c d : Char} (hd : d = '0' ∨ d = 'x')
    (h : Text.lowerAt before c after = [d]) : if d = '0' then c = '0' else c ∈ hexLetters := by
  rw [Text.lowerAt] at h
  split at h
  · rename_i hsmall
    have hall : (List.range 0x80).all (fun k =>
        ((Char.ofNat k).toLower != '0' || Char.ofNat k == '0') &&
          ((Char.ofNat k).toLower != 'x' || hexLetters.contains (Char.ofNat k))) = true := by
      decide
    have hcase := List.all_eq_true.mp hall c.toNat (List.mem_range.mpr hsmall)
    rw [Char.ofNat_toNat, (List.cons.inj h).1] at hcase
    rcases hd with rfl | rfl
    · simpa using hcase
    · simpa using hcase
  · rename_i hlarge
    have hshifted : Text.CaseMap.shifted Text.CaseMap.lowerRuns c = d := by
      rw [Text.CaseMap.lowerWide] at h
      split at h
      · generalize (Text.CaseMap.borderedByCased before &&
          !Text.CaseMap.borderedByCased after) = final at h
        rcases hd with rfl | rfl <;> cases final <;> exact absurd h (by decide)
      · split at h
        · cases h
        · exact (List.cons.inj h).1
    rcases hd with rfl | rfl
    · have hzero := Text.eq_of_shifted_eq (by decide : 0 < 48) (misses_hexMark 48 (by simp))
        (congrArg Char.toNat hshifted)
      omega
    · have hletter := Text.eq_of_shifted_eq (by decide : 0 < 120) (misses_hexMark 120 (by simp))
        (congrArg Char.toNat hshifted)
      omega

theorem lower_eq_hexMark_iff {cs : List Char} (hcs : cs.length ≤ 2) :
    Text.lower cs = ['0', 'x'] ↔ ∃ x ∈ hexLetters, cs = ['0', x] := by
  constructor
  · intro h
    obtain ⟨a, b, rfl⟩ := List.length_eq_two.mp (Text.length_of_lower_eq_hexMark hcs h)
    rw [Text.lower, Text.lowerAfter_cons, Text.lowerAfter_cons, Text.CaseMap.lowerAfter,
      List.append_nil] at h
    have ha : a ≠ 'İ' := by
      rintro rfl
      rw [Text.lowerAt_dotCapital] at h
      exact absurd (List.cons.inj h).1 (by decide)
    obtain ⟨d, hd, -⟩ := @Text.exists_lowerAt_eq a [] [b] ha
    rw [hd, List.singleton_append] at h
    obtain ⟨rfl, hb⟩ := List.cons.inj h
    have hzero : a = '0' := of_lowerAt (.inl rfl) hd
    have hletter : b ∈ hexLetters := of_lowerAt (.inr rfl) hb
    exact ⟨b, hletter, hzero ▸ rfl⟩
  · rintro ⟨x, hx, rfl⟩
    have hall : ∀ x ∈ hexLetters, Text.lower ['0', x] = ['0', 'x'] :=
      forall_mem_of_all (by decide)
    exact hall x hx

/-- What the mark of hexadecimal numerals makes of a text. -/
theorem answer_hexMark (s : List Char) : (Terminal.literal "0x".toList true).answer s =
    if Text.lower (s.take 2) = ['0', 'x'] then .matched [.chars (s.take 2)] (s.drop 2)
    else .failed := by
  have hlower : Text.lower "0x".toList = ['0', 'x'] := by decide
  have hlength : "0x".toList.length = 2 := rfl
  rw [Terminal.answer_anyCase, hlower, hlength]

/-- The mark is a zero and an `x` in either case. -/
theorem takes_hexMark {g : Grammar} {x : Char} (hx : x ∈ hexLetters) (s : List Char) :
    Takes g (.anyCaseText "0x") ('0' :: x :: s) s := by
  have hlower : Text.lower ['0', x] = ['0', 'x'] :=
    (lower_eq_hexMark_iff (show ['0', x].length ≤ 2 from Nat.le_refl 2)).mpr ⟨x, hx, rfl⟩
  exact ⟨_, .of_answer ((answer_hexMark _).trans (if_pos hlower))⟩

theorem failed_hexMark {g : Grammar} {s : List Char}
    (h : ∀ x ∈ hexLetters, ∀ t, s ≠ '0' :: x :: t) :
    Derives g (.anyCaseText "0x") s .failed := by
  refine .of_answer ((answer_hexMark s).trans (if_neg fun hlower => ?_))
  obtain ⟨x, hx, htake⟩ := (lower_eq_hexMark_iff (List.length_take_le 2 s)).mp hlower
  refine h x hx (s.drop 2) ?_
  conv_lhs => rw [← List.take_append_drop 2 s, htake]
  rfl

/-! ## All numerals -/

section

variable {dialect : Dialect} {s t : List Char} {x : Remnant}

theorem leaves_decimal (h : Leaves dialect.grammar (numeralOf (.one ten.digits) ten.marks) s x) :
    Leaves dialect.grammar (.call "decimal") s x :=
  .call (by simp [rules, lexicalRules] : decimal ∈ dialect.rules) h

/-- Behind its mark a hexadecimal numeral has to follow. -/
theorem leaves_hexadecimal {letter : Char} (hletter : letter ∈ hexLetters)
    (h : Leaves dialect.grammar (numeralOf (.one sixteen.digits) sixteen.marks) s x) :
    Leaves dialect.grammar (.call "hexadecimal") ('0' :: letter :: s)
      (if x = .failed then .broken else x) :=
  .call (by simp [rules, lexicalRules] : hexadecimal ∈ dialect.rules)
    (.seq_cons (takes_hexMark hletter s) (.seq_last h.must))

theorem failed_hexadecimal (h : ∀ letter ∈ hexLetters, ∀ t, s ≠ '0' :: letter :: t) :
    Leaves dialect.grammar (.call "hexadecimal") s .failed :=
  .call (by simp [rules, lexicalRules] : hexadecimal ∈ dialect.rules)
    (.seq_failed (failed_hexMark h))

/-- A hexadecimal numeral is read where its mark stands, and a decimal one elsewhere. -/
theorem leaves_numeral_of_mark (hhex : Leaves dialect.grammar (.call "hexadecimal") s x)
    (hx : x ≠ .failed) : Leaves dialect.grammar (.call "numeral") s x :=
  .call (by simp [rules, lexicalRules] : numeral ∈ dialect.rules) (leaves_choice hhex hx)

theorem leaves_numeral_of_noMark (h : ∀ letter ∈ hexLetters, ∀ t, s ≠ '0' :: letter :: t)
    (hdecimal : Leaves dialect.grammar (numeralOf (.one ten.digits) ten.marks) s x) :
    Leaves dialect.grammar (.call "numeral") s x :=
  .call (by simp [rules, lexicalRules] : numeral ∈ dialect.rules)
    (.choice_next (failed_hexadecimal h) (.choice_last (leaves_decimal hdecimal)))

/-- The letter of the mark belongs to no decimal numeral. -/
theorem apart_of_mem_hexLetters : ∀ letter ∈ hexLetters,
    letter ∉ '.' :: ten.digits.toList ∧ letter ∉ ten.marks.toList :=
  forall_mem_of_all (by decide)

/-- The zero of the mark is a decimal mantissa of its own. -/
theorem reads_zero {letter : Char} (hletter : letter ∈ hexLetters) :
    Reads ten ['0'] (letter :: s) :=
  .whole (List.cons_ne_nil _ _) (List.forall_mem_singleton.mpr (by decide))
    (startsOutside_cons.mpr (apart_of_mem_hexLetters letter hletter).1)

/-- Where no numeral begins, none is read. -/
theorem failed_numeral (h : ¬Begins s) : Leaves dialect.grammar (.call "numeral") s .failed := by
  have houtside : StartsOutside ('.' :: ten.digits.toList) s := fun c hc hmem => h ⟨c, hc, hmem⟩
  refine leaves_numeral_of_noMark ?_ (failed_numeralOf houtside)
  rintro letter - t rfl
  exact h ⟨'0', rfl, by decide⟩

/-- A numeral in error is one. -/
theorem broken_numeral (h : Malformed s) : Leaves dialect.grammar (.call "numeral") s .broken := by
  cases h with
  | @empty letter s hletter hnone =>
      obtain ⟨x, hx, hcases⟩ := leaves_of_no_mantissa hnone dialect.grammar
      have hhex := leaves_hexadecimal hletter hx
      rcases hcases with rfl | rfl
      · exact leaves_numeral_of_mark hhex nofun
      · exact leaves_numeral_of_mark hhex nofun
  | @point s hnone =>
      exact leaves_numeral_of_noMark (by simp) (broken_numeralOf_point hnone)
  | decimal cut =>
      refine leaves_numeral_of_noMark ?_ (broken_numeralOf_cutOff cut)
      rintro letter hletter t rfl
      -- The mark would have to be that of an exponent.
      obtain ⟨mantissa, mark, rest, hlongest, hs, mark_mem, -⟩ := cut
      obtain ⟨-, hmark⟩ := (reads_zero hletter).eq_of_mark hlongest.holds
        (ten.marks_apart mark mark_mem) hs.symm
      obtain ⟨rfl, -⟩ := List.cons.inj hmark
      exact (apart_of_mem_hexLetters _ hletter).2 mark_mem
  | hexadecimal hletter cut =>
      exact leaves_numeral_of_mark (leaves_hexadecimal hletter (broken_numeralOf_cutOff cut)) nofun

/-- Any other numeral is taken as far as it goes. -/
theorem takes_numeral (hbegins : Begins s) (hformed : ¬Malformed s) :
    ∃ taken t, s = taken ++ t ∧ LongestPrefix IsNumeral taken s ∧
      Takes dialect.grammar (.call "numeral") s t := by
  by_cases hmark : ∃ letter ∈ hexLetters, ∃ u, s = '0' :: letter :: u
  · obtain ⟨letter, hletter, u, rfl⟩ := hmark
    obtain ⟨first, hfirst, more, hmore⟩ : ∃ first, Mantissa sixteen first ∧ first <+: u := by
      by_contra hnone
      exact hformed (.empty hletter fun first hfirst hu => hnone ⟨first, hfirst, hu⟩)
    obtain ⟨taken, t, rfl, hlongest, htakes⟩ := takes_numeralOf (g := dialect.grammar) hfirst
      hmore.symm fun hcut => hformed (.hexadecimal hletter hcut)
    have hleaves : Leaves dialect.grammar (numeralOf (.one sixteen.digits) sixteen.marks)
        (taken ++ t) (.rest t) := htakes
    refine ⟨'0' :: letter :: taken, t, rfl,
      ⟨.hexadecimal hletter hlongest.holds, List.prefix_append _ t, ?_⟩,
      leaves_numeral_of_mark (leaves_hexadecimal hletter hleaves) nofun⟩
    intro other hother hprefix
    cases hother with
    | decimal hplain =>
        have hnone : ReadsScale ten [] (letter :: (taken ++ t)) :=
          .none (startsOutside_cons.mpr (apart_of_mem_hexLetters letter hletter).2)
        have hzero := ((reads_zero hletter).longest_plain hnone).longest other hplain hprefix
        simp only [List.length_append, List.length_cons, List.length_nil] at hzero ⊢
        omega
    | hexadecimal _ hplain =>
        rw [List.cons_prefix_cons, List.cons_prefix_cons] at hprefix
        have hlength := hlongest.longest _ hplain hprefix.2.2
        simp only [List.length_cons]
        omega
  · have hnoMark : ∀ letter ∈ hexLetters, ∀ u, s ≠ '0' :: letter :: u :=
      fun letter hletter u hs => hmark ⟨letter, hletter, u, hs⟩
    obtain ⟨first, more, hfirst, hmore⟩ : ∃ first more, Mantissa ten first ∧ s = first ++ more := by
      refine exists_mantissa (fun houtside => ?_) fun rest hs hrest => ?_
      · obtain ⟨c, hc, hmem⟩ := hbegins
        exact houtside c hc hmem
      · exact hformed (hs ▸ .point hrest)
    obtain ⟨taken, t, hs, hlongest, htakes⟩ := takes_numeralOf (g := dialect.grammar) hfirst
      hmore fun hcut => hformed (.decimal hcut)
    refine ⟨taken, t, hs, ⟨.decimal hlongest.holds, hlongest.isPrefix, ?_⟩,
      leaves_numeral_of_noMark (x := .rest t) hnoMark htakes⟩
    intro other hother hprefix
    cases hother with
    | decimal hplain => exact hlongest.longest other hplain hprefix
    | hexadecimal hletter _ =>
        obtain ⟨more, hmore⟩ := hprefix
        exact absurd hmore.symm (hnoMark _ hletter _)

end

theorem reach_numeral (dialect : Dialect) :
    (Pattern.rule "numeral").staysIn dialect 13 = true ∧
      (Pattern.rule "numeral").bracketless dialect 13 = true := by
  cases dialect <;> decide

end Numeral

variable {σ : Type}

/-- What the rule makes of a text: it does not match where no numeral begins, stops with a syntax
error where one is in error, and takes the longest numeral elsewhere. -/
theorem numerals_are_longest (dialect : Dialect) (source : Source) (observer : Observer σ)
    {depth : Nat} (hdepth : 13 ≤ depth) {st : State σ} (hst : st.offset ≤ source.length) :
    let outcome :=
      Matching.run (dialect.grammar.setting source.text observer) depth (.rule "numeral") st
    let s := Text.rest source.text st.offset
    (outcome.verdict = .failed ↔ ¬Numeral.Begins s) ∧
      ((∃ fault, outcome.verdict = .stopped (.fault fault) ∧
        (ParseError.ofFault source dialect.grammar.keywords fault).code = "P001") ↔
          Numeral.Malformed s) ∧
      (Numeral.Begins s → ¬Numeral.Malformed s →
        ∃ taken, LongestPrefix IsNumeral taken s ∧ outcome.Took st taken) := by
  intro outcome s
  have hrule : numeral ∈ dialect.rules := by simp [rules, lexicalRules]
  have hanswers : Answers dialect.grammar source.text depth (.rule "numeral") st.offset st.offset
      outcome := answers_run (recordable dialect).toSound source.text observer depth
    (sound_rule (List.mem_map_of_mem (f := Rule.name) hrule)) st hst
  have hderives : ∀ {a : Answer}, Derives dialect.grammar (.call "numeral") s a →
      DerivesIn dialect.grammar depth (.rule "numeral") s a := fun h =>
    .of_staysIn (Numeral.reach_numeral dialect).1 (derives_rule_of_call h) hdepth
  have hfailed : ¬Numeral.Begins s → outcome.verdict = .failed := fun hnone =>
    (hanswers.missed (hderives (Numeral.failed_numeral hnone))).1
  have hstopped : Numeral.Malformed s → ∃ fault, outcome.verdict = .stopped (.fault fault) :=
    fun hmalformed => hanswers.stopped (hderives (Numeral.broken_numeral hmalformed))
  have htook : Numeral.Begins s → ¬Numeral.Malformed s →
      ∃ taken, LongestPrefix IsNumeral taken s ∧ outcome.Took st taken := by
    intro hbegins hformed
    obtain ⟨taken, t, hs, hlongest, parts, hparts⟩ : ∃ taken t, s = taken ++ t ∧
        LongestPrefix IsNumeral taken s ∧ Takes dialect.grammar (.call "numeral") s t :=
      Numeral.takes_numeral hbegins hformed
    exact ⟨taken, hlongest, hanswers.took hs hst (hderives hparts)⟩
  refine ⟨⟨fun hverdict hbegins => ?_, hfailed⟩, ⟨?_, fun hmalformed => ?_⟩, htook⟩
  · by_cases hmalformed : Numeral.Malformed s
    · obtain ⟨fault, hfault⟩ := hstopped hmalformed
      cases hverdict.symm.trans hfault
    · obtain ⟨taken, -, htaken⟩ := htook hbegins hmalformed
      cases hverdict.symm.trans htaken.1
  · rintro ⟨fault, hfault, -⟩
    by_contra hformed
    by_cases hbegins : Numeral.Begins s
    · obtain ⟨taken, -, htaken⟩ := htook hbegins hformed
      cases hfault.symm.trans htaken.1
    · cases hfault.symm.trans (hfailed hbegins)
  · obtain ⟨fault, hfault⟩ := hstopped hmalformed
    have hunbracketed := Pattern.stopsFor_of_bracketless (Numeral.reach_numeral dialect).2 depth st
      (.fault fault) hfault
    exact ⟨fault, hfault, ParseError.code_ofFault hunbracketed⟩

/-- The exponent of `1e+x` has a mark and a sign, but no digit. -/
theorem numerals_are_longest_cutOff :
    let source := Source.ofString "n=1e+x" "cart"
    let st := (State.initial ()).moveTo 2
    let outcome := Matching.run (Dialect.pico8.grammar.setting source.text (Observer.idle Unit)) 13
      (.rule "numeral") st
    ∃ fault, outcome.verdict = .stopped (.fault fault) ∧
      (ParseError.ofFault source Dialect.pico8.grammar.keywords fault).code = "P001" := by
  intro source st outcome
  have hlongest := numerals_are_longest .pico8 source (Observer.idle Unit) (Nat.le_refl 13)
    (by decide : st.offset ≤ source.length)
  refine hlongest.2.1.mpr (.decimal ⟨['1'], 'e', ['+', 'x'], ?_, by decide, by decide, ?_⟩)
  · have hreads : Numeral.Reads Numeral.ten ['1'] ['e', '+', 'x'] :=
      .whole (List.cons_ne_nil _ _) (List.forall_mem_singleton.mpr (by decide)) (by decide)
    exact hreads.longestPrefix
  · rintro ⟨sign, c, more, rfl | ⟨a, -, rfl⟩, hc, hrest⟩
    · obtain ⟨rfl, -⟩ := List.cons.inj hrest
      exact absurd hc (by decide)
    · obtain ⟨rfl, -⟩ := List.cons.inj (List.cons.inj hrest).2
      exact absurd hc (by decide)

end CartLua
