import ConfigMerge.Proofs.Time.Calendar
import ConfigMerge.Time.Rfc3339
import Mathlib.Algebra.Group.Nat.Defs

/-!
# Proofs/Time/Rfc3339 — times are read back as they were written

The reader takes the fields of a written time one by one (`Rfc3339.readNumber?_padded`), and the
date and the second of the day make up the time again.  So every time that can be read at all is
read back from its text (`Rfc3339.timestamp?_seconds`).
-/

namespace ConfigMerge

/-- The times that texts denote: the calendar of the reader has the year, and a leap second follows
the last second of a minute. -/
structure Timestamp.Legible (t : Timestamp) : Prop where
  year : Rfc3339.isYear t.toInstant.date.year = true
  leap : t.leap = true → t.seconds % 60 = 59

/-- So are whole seconds in years of up to four digits. -/
theorem Timestamp.legible_of_year {t : Timestamp} (hlow : 0 ≤ t.toInstant.date.year)
    (hhigh : t.toInstant.date.year ≤ 9999) (hleap : t.leap = false) : t.Legible where
  year := by
    simp only [Rfc3339.isYear, Bool.and_eq_true, decide_eq_true_eq]
    omega
  leap h := absurd (hleap.symm.trans h) Bool.false_ne_true

namespace Rfc3339

/-! ## Numbers -/

/-- The marks between the fields of a written time, and its zone. -/
def marks : List Char := ['-', 'T', ':', 'Z']

theorem not_blank_of_mem_marks : ∀ c ∈ marks, isBlank c = false ∧ c.isDigit = false := by
  simp [marks, isBlank, Char.isDigit]

/-- One of the marks is first in the text. -/
def BeginsMark (s : List Char) : Prop := ∃ c ∈ marks, ∃ rest, s = c :: rest

theorem beginsMark_cons {c : Char} (hc : c ∈ marks) (s : List Char) : BeginsMark (c :: s) :=
  ⟨c, hc, s, rfl⟩

theorem isBlank_of_isDigit {c : Char} (h : c.isDigit) : isBlank c = false := by
  have hrange : 48 ≤ c.toNat ∧ c.toNat ≤ 57 := by
    simpa [Char.isDigit, UInt32.le_iff_toNat_le] using h
  simp only [isBlank, Bool.or_eq_false_iff, Bool.and_eq_false_iff, decide_eq_false_iff_not]
  omega

theorem isDigit_of_mem_padded {width n : Nat} {c : Char} (h : c ∈ padded width n) : c.isDigit := by
  rcases List.mem_append.mp h with hzero | hdigit
  · rw [(List.mem_replicate.mp hzero).2]
    rfl
  · exact Nat.isDigit_of_mem_toDigits (by decide) (by decide) hdigit

theorem length_padded {width n : Nat} (hwidth : 0 < width) (hn : n < 10 ^ width) :
    (padded width n).length = width := by
  have hlen := (Nat.length_toDigits_le_iff (b := 10) (by decide) hwidth).mpr hn
  rw [padded, List.length_append, List.length_replicate]
  omega

theorem ofDigitChars_padded (width n : Nat) : Nat.ofDigitChars 10 (padded width n) 0 = n := by
  rw [padded, Nat.ofDigitChars_append, Nat.ofDigitChars_replicate_zero, Nat.mul_zero,
    Nat.ofDigitChars_ten_toDigits]

theorem padded_cons (width n : Nat) : ∃ c cs, padded width n = c :: cs ∧ c.isDigit := by
  have hne : padded width n ≠ [] :=
    List.append_ne_nil_of_right_ne_nil _ Nat.toDigits_ne_nil
  obtain ⟨c, cs, hcs⟩ := List.exists_cons_of_ne_nil hne
  have hmem : c ∈ padded width n := hcs ▸ List.mem_cons_self
  exact ⟨c, cs, hcs, isDigit_of_mem_padded hmem⟩

theorem skipBlanks_cons {c : Char} (hc : isBlank c = false) (s : List Char) :
    skipBlanks (c :: s) = c :: s :=
  List.dropWhile_cons_of_neg (by simp [hc])

theorem skipBlanks_padded (width n : Nat) (s : List Char) :
    skipBlanks (padded width n ++ s) = padded width n ++ s := by
  obtain ⟨c, cs, hcs, hc⟩ := padded_cons width n
  rw [hcs, List.cons_append, skipBlanks_cons (isBlank_of_isDigit hc)]

theorem takeWhile_take_of_beginsMark {s : List Char} (hs : BeginsMark s) (k : Nat) :
    (s.take k).takeWhile Char.isDigit = [] := by
  obtain ⟨c, hc, rest, rfl⟩ := hs
  cases k with
  | zero => rfl
  | succ k =>
    rw [List.take_succ_cons, List.takeWhile_cons_of_neg (by simp [not_blank_of_mem_marks c hc])]

/-- **A number is read back** up to the mark after it. -/
theorem readNumber?_padded {width n bound : Nat} {s : List Char}
    (hbound : (padded width n).length ≤ bound) (hs : BeginsMark s) :
    readNumber? bound (padded width n ++ s) = some (n, s) := by
  have hdigits : ((padded width n ++ s).take bound).takeWhile Char.isDigit = padded width n := by
    rw [List.take_append, List.take_of_length_le hbound,
      List.takeWhile_append_of_pos fun c hc => isDigit_of_mem_padded hc,
      takeWhile_take_of_beginsMark hs, List.append_nil]
  obtain ⟨c, cs, hcs, -⟩ := padded_cons width n
  simp only [readNumber?]
  rw [skipBlanks_padded, hdigits, if_neg (by simp [hcs]), ofDigitChars_padded,
    List.drop_left]

/-- …and if it lies within its bounds, so it is as a field of a time. -/
theorem readWithin?_padded {low high n : Nat} {s : List Char} (hn : low ≤ n ∧ n ≤ high)
    (hhigh : high < 100) (hs : BeginsMark s) :
    readWithin? low high (padded 2 n ++ s) = some (n, s) := by
  have hlen : (padded 2 n).length = 2 := length_padded (by decide) (by omega)
  rw [readWithin?, readNumber?_padded (Nat.le_of_eq hlen) hs, Option.filter_some_pos (by simp [hn])]

theorem dropMark?_cons {c : Char} (hmark : c ∈ marks) (s : List Char) :
    dropMark? c (c :: s) = some s := by
  rw [dropMark?, skipBlanks_cons (not_blank_of_mem_marks c hmark).1]
  exact if_pos rfl

/-- **A year is read back**, with its sign if it has one. -/
theorem readYear?_yearChars {y : Int} (hy : isYear y = true) {s : List Char} (hs : BeginsMark s) :
    readYear? (yearChars y ++ s) = some (y, s) := by
  obtain ⟨c, cs, hcs, hc⟩ := padded_cons 4 y.natAbs
  have hsigned (sign : Int) : readYear?.signed sign (padded 4 y.natAbs ++ s) =
      some (sign * y.natAbs, s) := by
    rw [readYear?.signed, readNumber?_padded (by simp) hs, Option.map_some]
  have hstarts : readYear?.startsWithDigit (padded 4 y.natAbs ++ s) = true := by
    rw [hcs]
    exact hc
  have hyear : Option.filter (fun r : Int × List Char => isYear r.1) (some (y, s)) = some (y, s) :=
    Option.filter_some_pos hy
  unfold readYear? yearChars
  split_ifs with hplain hnegative
  · have hlen : (padded 4 y.toNat).length = 4 := length_padded (by decide) (by omega)
    obtain ⟨d, ds, hds, hd⟩ := padded_cons 4 y.toNat
    have hplus : d ≠ '+' := by
      rintro rfl
      exact absurd hd (by decide)
    have hminus : d ≠ '-' := by
      rintro rfl
      exact absurd hd (by decide)
    have hnumber := readNumber?_padded (n := y.toNat) (Nat.le_of_eq hlen) hs
    rw [skipBlanks_padded]
    rw [hds, List.cons_append] at hnumber ⊢
    split
    · simp_all
    · simp_all
    · rw [hnumber, Option.map_some, Int.toNat_of_nonneg hplain.1]
      exact hyear
  · simp only [List.cons_append, skipBlanks_cons (c := '-') (by decide), hstarts, if_true, hsigned]
    rw [show (-1 : Int) * y.natAbs = y by omega, hyear]
  · simp only [List.cons_append, skipBlanks_cons (c := '+') (by decide), hstarts, if_true, hsigned]
    rw [show (1 : Int) * y.natAbs = y by omega, hyear]

/-! ## Times -/

theorem bind_eq_some {α β : Type} {x : Option α} {a : α} {f : α → Option β} {b : β}
    (hx : x = some a) (hf : f a = some b) : x.bind f = some b :=
  Option.bind_eq_some_iff.mpr ⟨a, hx, hf⟩

/-- What comes first in a sequence does not matter to what is known of the rest. -/
theorem exists_of_bind {α β : Type} {x : Option α} {f : α → Option β} {b : β}
    (h : x.bind f = some b) : ∃ a, f a = some b :=
  (Option.bind_eq_some_iff.mp h).imp fun _ => And.right

theorem afterSeparator?_cons (s : List Char) : ofChars?.afterSeparator? ('T' :: s) = some s := rfl

theorem readFraction?_zone : readFraction? ['Z'] = some (0, ['Z']) := rfl

theorem readZone?_zone : readZone? ['Z'] = some (0, []) := rfl

/-- **A time is read back from its fields**; a leap second is written as the sixtieth. -/
theorem ofChars?_fields {year : Int} {month day hour minute second : Nat} {leap : Bool} {t : Instant}
    (hyear : isYear year = true) (hvalid : (⟨year, month, day⟩ : Date).isValid = true)
    (hhour : hour ≤ 23) (hminute : minute ≤ 59) (hsecond : second ≤ 59)
    (hleap : leap = true → second = 59)
    (hseconds : t.seconds = 86400 * (⟨year, month, day⟩ : Date).toDay +
      (3600 * hour + 60 * minute + second : Nat))
    (hnanos : t.nanos = if leap then 1_000_000_000 else 0) (ht : isYear t.date.year = true) :
    ofChars? (yearChars year ++ '-' :: padded 2 month ++ '-' :: padded 2 day ++ 'T' :: padded 2 hour
      ++ ':' :: padded 2 minute ++ ':' :: padded 2 (second + if leap then 1 else 0) ++ ['Z']) =
      some t := by
  have hwritten : second + (if leap then 1 else 0) ≤ 60 := by
    split <;> omega
  have hsixty : second + (if leap then 1 else 0) = 60 ↔ leap = true := by
    cases leap with
    | true => simp [hleap rfl]
    | false => simp only [Bool.false_eq_true, if_false, iff_false]; omega
  have hshown : (if leap = true then 59 else second + if leap then 1 else 0) = second := by
    cases leap <;> simp_all
  have hdate := hvalid
  simp only [Date.isValid, Bool.and_eq_true, decide_eq_true_eq] at hdate
  obtain ⟨⟨⟨hmonth, hmonth'⟩, hday⟩, hday'⟩ := hdate
  have hday'' := Nat.le_trans hday' (Date.monthLength_le _ _)
  simp only [List.append_assoc, List.cons_append]
  have hdash (s : List Char) : BeginsMark ('-' :: s) := beginsMark_cons (by decide) s
  have hcolon (s : List Char) : BeginsMark (':' :: s) := beginsMark_cons (by decide) s
  -- one step for each field and each mark
  refine bind_eq_some (readYear?_yearChars hyear (hdash _)) ?_
  refine bind_eq_some (dropMark?_cons (by decide) _) ?_
  refine bind_eq_some (readWithin?_padded ⟨hmonth, hmonth'⟩ (by decide) (hdash _)) ?_
  refine bind_eq_some (dropMark?_cons (by decide) _) ?_
  refine bind_eq_some (readWithin?_padded ⟨hday, hday''⟩ (by decide)
    (beginsMark_cons (c := 'T') (by decide) _)) ?_
  refine bind_eq_some (afterSeparator?_cons _) ?_
  refine bind_eq_some (readWithin?_padded ⟨Nat.zero_le _, hhour⟩ (by decide) (hcolon _)) ?_
  refine bind_eq_some (dropMark?_cons (by decide) _) ?_
  refine bind_eq_some (readWithin?_padded ⟨Nat.zero_le _, hminute⟩ (by decide) (hcolon _)) ?_
  refine bind_eq_some (dropMark?_cons (by decide) _) ?_
  refine bind_eq_some (readWithin?_padded ⟨Nat.zero_le _, hwritten⟩ (by decide)
    (beginsMark_cons (c := 'Z') (by decide) _)) ?_
  refine bind_eq_some readFraction?_zone (bind_eq_some readZone?_zone ?_)
  dsimp only
  rw [if_pos ⟨hvalid, rfl⟩]
  simp only [hsixty, hshown]
  rw [Int.sub_zero, Nat.zero_add, ← hseconds, ← hnanos]
  exact if_pos ht

theorem toTimestamp_toInstant (t : Timestamp) : t.toInstant.toTimestamp = t := by
  obtain ⟨seconds, _ | _⟩ := t <;> rfl

theorem inLeapSecond_toInstant (t : Timestamp) : t.toInstant.inLeapSecond = t.leap :=
  congrArg Timestamp.leap (toTimestamp_toInstant t)

/-- **Every legible time is read back from its text.** -/
theorem timestamp?_seconds {t : Timestamp} (ht : t.Legible) : timestamp? (seconds t) = some t := by
  have hday : t.toInstant.date.toDay = t.seconds / 86400 := Date.toDay_ofDay _
  have htime : t.toInstant.secondOfDay = (t.seconds % 86400).toNat := rfl
  have hvalid : t.toInstant.date.isValid = true := Date.isValid_ofDay _
  have hchars : ofChars? (secondChars t.toInstant ++ ['Z']) = some t.toInstant := by
    rw [secondChars, inLeapSecond_toInstant]
    refine ofChars?_fields ht.year hvalid (by omega) (by omega) (by omega)
      (fun hleap => ?_) ?_ rfl ht.year
    · have hlast := ht.leap hleap
      omega
    · change t.seconds = 86400 * t.toInstant.date.toDay + _
      omega
  rw [timestamp?, instant?, seconds, String.toList_ofList, hchars, Option.map_some,
    toTimestamp_toInstant]

/-! ## Every time that is read is legible -/

theorem ofDigitChars_lt {ds : List Char} (hds : ∀ c ∈ ds, c.isDigit) (n : Nat) :
    Nat.ofDigitChars 10 ds n < (n + 1) * 10 ^ ds.length := by
  induction ds generalizing n with
  | nil => simp
  | cons c rest ih =>
    have hdigit : c.toNat - '0'.toNat < 10 := by
      have hrange : 48 ≤ c.toNat ∧ c.toNat ≤ 57 := by
        simpa [Char.isDigit, UInt32.le_iff_toNat_le] using hds c List.mem_cons_self
      have hzero : '0'.toNat = 48 := rfl
      omega
    rw [Nat.ofDigitChars_cons, List.length_cons, Nat.pow_succ']
    calc Nat.ofDigitChars 10 rest (10 * n + (c.toNat - '0'.toNat))
        < (10 * n + (c.toNat - '0'.toNat) + 1) * 10 ^ rest.length :=
          ih (fun d hd => hds d (List.mem_cons_of_mem c hd)) _
      _ ≤ (n + 1) * 10 * 10 ^ rest.length := Nat.mul_le_mul_right _ (by omega)
      _ = (n + 1) * (10 * 10 ^ rest.length) := Nat.mul_assoc _ _ _

/-- A fraction is shorter than a second. -/
theorem nanos_lt_of_readFraction? {s rest : List Char} {n : Nat}
    (h : readFraction? s = some (n, rest)) : n < 1_000_000_000 := by
  unfold readFraction? at h
  split at h
  · rename_i tail
    dsimp only at h
    split_ifs at h with hempty
    obtain ⟨rfl, -⟩ := Prod.mk.inj (Option.some.inj h)
    have hdigits : ∀ c ∈ (tail.takeWhile Char.isDigit).take 9, c.isDigit := fun c hc =>
      List.all_eq_true.mp List.all_takeWhile c (List.mem_of_mem_take hc)
    have hlen : ((tail.takeWhile Char.isDigit).take 9).length ≤ 9 := List.length_take_le _ _
    generalize (tail.takeWhile Char.isDigit).take 9 = used at hdigits hlen
    calc Nat.ofDigitChars 10 used 0 * 10 ^ (9 - used.length)
        < (0 + 1) * 10 ^ used.length * 10 ^ (9 - used.length) :=
          Nat.mul_lt_mul_of_pos_right (ofDigitChars_lt hdigits 0) (Nat.pow_pos (by decide))
      _ = 10 ^ 9 := by
          rw [Nat.zero_add, Nat.one_mul, ← Nat.pow_add, Nat.add_sub_cancel' hlen]
  · obtain ⟨rfl, -⟩ := Prod.mk.inj (Option.some.inj h)
    decide

theorem offset_of_offset? {sign : Int} {s rest : List Char} {offset : Int}
    (h : readZone?.offset? sign s = some (offset, rest)) : offset % 60 = 0 := by
  unfold readZone?.offset? at h
  split at h
  · split at h
    · rename_i h₁ h₂ _ _ m₁ m₂ _ _
      dsimp only at h
      generalize Nat.ofDigitChars 10 [h₁, h₂] 0 = hours at h
      generalize Nat.ofDigitChars 10 [m₁, m₂] 0 = minutes at h
      split_ifs at h
      obtain ⟨rfl, -⟩ := Prod.mk.inj (Option.some.inj h)
      have hminutes : 3600 * hours + 60 * minutes = 60 * (60 * hours + minutes) := by omega
      rw [hminutes, Int.natCast_mul, Int.mul_left_comm]
      exact Int.mul_emod_right _ _
    · cases h
  · cases h

/-- A zone is some whole minutes away. -/
theorem offset_of_readZone? {s rest : List Char} {offset : Int}
    (h : readZone? s = some (offset, rest)) : offset % 60 = 0 := by
  unfold readZone? at h
  dsimp only at h
  split at h
  · obtain ⟨rfl, -⟩ := Prod.mk.inj (Option.some.inj h)
    rfl
  · obtain ⟨rfl, -⟩ := Prod.mk.inj (Option.some.inj h)
    rfl
  · split_ifs at h
    · obtain ⟨rfl, -⟩ := Prod.mk.inj (Option.some.inj h)
      rfl
    · exact offset_of_offset? h
    · exact offset_of_offset? h
  · cases h

theorem inLeapSecond_iff (t : Instant) : t.inLeapSecond = true ↔ 1_000_000_000 ≤ t.nanos := by
  rw [Instant.inLeapSecond, decide_eq_true_iff]

theorem date_toTimestamp (t : Instant) : t.toTimestamp.toInstant.date = t.date := rfl

/-- **Every time that is read is legible.** -/
theorem legible_of_timestamp? {text : String} {t : Timestamp} (h : timestamp? text = some t) :
    t.Legible := by
  obtain ⟨instant, hinstant, rfl⟩ := Option.map_eq_some_iff.mp h
  -- the fields and the marks before the fraction do not matter
  obtain ⟨⟨year, s₁⟩, h⟩ := exists_of_bind hinstant
  obtain ⟨s₂, h⟩ := exists_of_bind h
  obtain ⟨⟨month, s₃⟩, h⟩ := exists_of_bind h
  obtain ⟨s₄, h⟩ := exists_of_bind h
  obtain ⟨⟨day, s₅⟩, h⟩ := exists_of_bind h
  obtain ⟨s₆, h⟩ := exists_of_bind h
  obtain ⟨⟨hour, s₇⟩, h⟩ := exists_of_bind h
  obtain ⟨s₈, h⟩ := exists_of_bind h
  obtain ⟨⟨minute, s₉⟩, h⟩ := exists_of_bind h
  obtain ⟨s₁₀, h⟩ := exists_of_bind h
  obtain ⟨⟨second, s₁₁⟩, h⟩ := exists_of_bind h
  obtain ⟨⟨nanos, s₁₂⟩, hnanos, h⟩ := Option.bind_eq_some_iff.mp h
  obtain ⟨⟨offset, s₁₃⟩, hoffset, hresult⟩ := Option.bind_eq_some_iff.mp h
  dsimp only at hresult
  have hfraction := nanos_lt_of_readFraction? hnanos
  have hzone := offset_of_readZone? hoffset
  split_ifs at hresult with _ hsixty hyear hyear
  · obtain rfl := Option.some.inj hresult
    refine ⟨(date_toTimestamp _).symm ▸ hyear, fun _ => ?_⟩
    dsimp only [Instant.toTimestamp]
    omega
  · obtain rfl := Option.some.inj hresult
    refine ⟨(date_toTimestamp _).symm ▸ hyear, fun hleap => ?_⟩
    rw [Instant.toTimestamp, inLeapSecond_iff] at hleap
    dsimp only at hleap
    omega

end Rfc3339

end ConfigMerge
