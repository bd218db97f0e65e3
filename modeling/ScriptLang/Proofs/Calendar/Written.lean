/-
  ScriptLang.Proofs.Calendar.Written — dates read back from the form that is written.

  - `padded_length` / `padded_value`: a number filled up to a width keeps its value.
  - `ofChars?_dayFirst`: a date of the years 0 to 9999 reads back.
  - `ofChars?_year`: no other year can be read.
  - `ofChars?_eq_some_iff`: a date is read from the text that is written for it, and no other.
  - `isDay_iff`: the days that there are, told without the lengths of the months.
-/

import Mathlib.Algebra.Group.Nat.Defs
import ScriptLang.Calendar.Date

namespace ScriptLang.Date

theorem padded_eq (width n : Nat) :
    padded width n = List.replicate (width - (Nat.toDigits 10 n).length) '0' ++ Nat.toDigits 10 n := rfl

theorem padded_length {width n : Nat} (hw : 0 < width) (h : n < 10 ^ width) : (padded width n).length = width := by
  have := (Nat.length_toDigits_le_iff (b := 10) (by decide) hw).mpr h
  rw [padded_eq, List.length_append, List.length_replicate]
  omega

theorem padded_isDigit (width n : Nat) : ∀ c ∈ padded width n, c.isDigit = true := by
  rw [padded_eq]
  refine List.forall_mem_append.mpr ⟨fun c hc => ?_, fun c hc => Nat.isDigit_of_mem_toDigits (by decide) (by decide) hc⟩
  rw [(List.mem_replicate.mp hc).2]
  rfl

theorem padded_value (width n : Nat) : number (padded width n) = n := by
  simp [number, padded_eq, Nat.ofDigitChars_append]

theorem digit_lt {c : Char} (h : c.isDigit = true) : '0'.toNat ≤ c.toNat ∧ c.toNat - '0'.toNat < 10 := by
  simp only [Char.isDigit, Bool.and_eq_true, decide_eq_true_eq, UInt32.le_iff_toNat_le] at h
  have h0 : 48 ≤ c.val.toNat := h.1
  have h9 : c.val.toNat ≤ 57 := h.2
  show 48 ≤ c.val.toNat ∧ c.val.toNat - 48 < 10
  omega

theorem number_cons (c : Char) (digits : List Char) :
    number (c :: digits) = (c.toNat - '0'.toNat) * 10 ^ digits.length + number digits := by
  unfold number
  rw [Nat.ofDigitChars_cons, Nat.ofDigitChars_eq_ofDigitChars_zero, Nat.mul_zero, Nat.zero_add, Nat.mul_comm]

theorem number_lt {digits : List Char} (h : ∀ c ∈ digits, c.isDigit = true) : number digits < 10 ^ digits.length := by
  induction digits with
  | nil => decide
  | cons c digits ih =>
    have hc := (digit_lt (h c (List.mem_cons_self ..))).2
    have hd := ih fun d hd => h d (List.mem_cons_of_mem _ hd)
    have hle := Nat.mul_le_mul_right (10 ^ digits.length) (Nat.le_of_lt_succ hc)
    rw [number_cons, List.length_cons, Nat.pow_succ]
    omega

/-- Digits that are as many and have the same value are the same. -/
theorem number_inj {ds es : List Char} (hd : ∀ c ∈ ds, c.isDigit = true) (he : ∀ c ∈ es, c.isDigit = true)
    (hl : ds.length = es.length) (h : number ds = number es) : ds = es := by
  induction ds generalizing es with
  | nil => exact (List.length_eq_zero_iff.mp hl.symm).symm
  | cons c ds ih =>
    obtain ⟨e, es, rfl⟩ := List.exists_cons_of_length_eq_add_one hl.symm
    obtain ⟨hc, hd⟩ := List.forall_mem_cons.mp hd
    obtain ⟨he', he⟩ := List.forall_mem_cons.mp he
    have hl : ds.length = es.length := Nat.succ.inj hl
    have hlt := number_lt hd
    have hlt' := number_lt he
    rw [number_cons, number_cons, hl] at h
    rw [hl] at hlt
    -- The first digit is the quotient, and the other digits are what is left.
    have hq : c.toNat - '0'.toNat = e.toNat - '0'.toNat := by
      have := congrArg (· / 10 ^ es.length) h
      simpa only [Nat.mul_comm _ (10 ^ es.length), Nat.mul_add_div (Nat.pow_pos (by decide : 0 < 10)),
        Nat.div_eq_of_lt hlt, Nat.div_eq_of_lt hlt', Nat.add_zero] using this
    have hce : c.toNat = e.toNat := by
      have := (digit_lt hc).1
      have := (digit_lt he').1
      omega
    rw [hq] at h
    rw [Char.toNat_inj.mp hce, ih hd he hl (Nat.add_left_cancel h)]

/-- Digits are what is written for their value. -/
theorem padded_number {width : Nat} {digits : List Char} (hw : 0 < width) (hl : digits.length = width)
    (hd : ∀ c ∈ digits, c.isDigit = true) : padded width (number digits) = digits := by
  have hlt := number_lt hd
  rw [hl] at hlt
  exact number_inj (padded_isDigit _ _) hd ((padded_length hw hlt).trans hl.symm) (padded_value _ _)

theorem day_le (d : Date) : d.day ≤ 31 ∧ d.month ≤ 12 := by
  have hd := d.exists_day
  have hm : daysIn d.year d.month ≤ 31 ∧ (daysIn d.year d.month = 0 ∨ d.month ≤ 12) := by
    unfold daysIn
    split <;> (try split) <;> omega
  omega

/-- The parts of a date that is written in ten characters. -/
theorem dayFirst_parts {d : Date} (h : 0 ≤ d.year ∧ d.year ≤ 9999) :
    d.dayFirst = padded 2 d.day ++ '/' :: (padded 2 d.month ++ '/' :: padded 4 d.year.natAbs) := by
  unfold dayFirst yearChars
  rw [if_neg (by omega), if_neg (by omega), List.append_assoc]
  rfl

theorem padded_lengths {d : Date} (h : 0 ≤ d.year ∧ d.year ≤ 9999) :
    (padded 2 d.day).length = 2 ∧ (padded 2 d.month).length = 2 ∧ (padded 4 d.year.natAbs).length = 4 := by
  have := d.day_le
  exact ⟨padded_length (by decide) (by omega), padded_length (by decide) (by omega), padded_length (by decide) (by omega)⟩

theorem padded_isDigits (d : Date) :
    ∀ c ∈ padded 2 d.day ++ padded 2 d.month ++ padded 4 d.year.natAbs, c.isDigit = true :=
  List.forall_mem_append.mpr ⟨List.forall_mem_append.mpr ⟨padded_isDigit 2 _, padded_isDigit 2 _⟩, padded_isDigit 4 _⟩

theorem ofChars?_digits {d m y : List Char} (hl : d.length = 2 ∧ m.length = 2 ∧ y.length = 4)
    (hd : ∀ c ∈ d ++ m ++ y, c.isDigit = true) :
    ofChars? (d ++ '/' :: (m ++ '/' :: y)) = ofYearMonthDay? (number y) (number m) (number d) := by
  match d, m, y, hl with
  | [d₁, d₂], [m₁, m₂], [y₁, y₂, y₃, y₄], _ =>
    show (if _ then _ else _) = _
    exact if_pos (List.all_eq_true.mpr hd)

theorem ofChars?_dayFirst {d : Date} (h : 0 ≤ d.year ∧ d.year ≤ 9999) : ofChars? d.dayFirst = some d := by
  have hyear : (d.year.natAbs : Int) = d.year := Int.natAbs_of_nonneg h.1
  rw [dayFirst_parts h, ofChars?_digits (padded_lengths h) d.padded_isDigits, padded_value, padded_value, padded_value, hyear]
  exact dif_pos d.exists_day

/-- What is read is a day, a month and a year, in as many digits as they have when written. -/
theorem ofChars?_some {cs : List Char} {date : Date} (h : ofChars? cs = some date) : ∃ d m y,
    (d.length = 2 ∧ m.length = 2 ∧ y.length = 4) ∧ (∀ c ∈ d ++ m ++ y, c.isDigit = true) ∧
      cs = d ++ '/' :: (m ++ '/' :: y) ∧ date.day = number d ∧ date.month = number m ∧ date.year = number y := by
  unfold ofChars? at h
  split at h
  · rename_i d₁ d₂ m₁ m₂ y₁ y₂ y₃ y₄
    split at h
    · rename_i hall
      unfold ofYearMonthDay? at h
      split at h
      · cases h
        exact ⟨[d₁, d₂], [m₁, m₂], [y₁, y₂, y₃, y₄], ⟨rfl, rfl, rfl⟩, List.all_eq_true.mp hall, rfl, rfl, rfl, rfl⟩
      · cases h
    · cases h
  · cases h

/-- A year that was read has four digits. -/
theorem ofChars?_year {cs : List Char} {d : Date} (h : ofChars? cs = some d) : 0 ≤ d.year ∧ d.year ≤ 9999 := by
  obtain ⟨_, _, y, ⟨-, -, hl⟩, hd, -, -, -, hyear⟩ := ofChars?_some h
  have hlt := number_lt fun c hc => hd c (List.mem_append_right _ hc)
  rw [hl] at hlt
  omega

theorem eq_dayFirst {cs : List Char} {date : Date} (h : ofChars? cs = some date) : cs = date.dayFirst := by
  obtain ⟨d, m, y, ⟨hd, hm, hy⟩, hdigits, rfl, hday, hmonth, hyear⟩ := ofChars?_some h
  obtain ⟨hdm, hydigits⟩ := List.forall_mem_append.mp hdigits
  obtain ⟨hddigits, hmdigits⟩ := List.forall_mem_append.mp hdm
  rw [dayFirst_parts (ofChars?_year h), hday, hmonth, hyear, Int.natAbs_natCast, padded_number (by decide) hd hddigits,
    padded_number (by decide) hm hmdigits, padded_number (by decide) hy hydigits]

/-- A date is read from the text that is written for it, if its year has four digits. -/
theorem ofChars?_eq_some_iff {cs : List Char} {d : Date} :
    ofChars? cs = some d ↔ (0 ≤ d.year ∧ d.year ≤ 9999) ∧ cs = d.dayFirst :=
  ⟨fun h => ⟨ofChars?_year h, eq_dayFirst h⟩, fun ⟨hyear, h⟩ => h ▸ ofChars?_dayFirst hyear⟩

/-! ## The days that there are -/

/-- Every fourth year is a leap year, but of those that end a century only every fourth one. -/
def LeapYear (year : Int) : Prop := 4 ∣ year ∧ (100 ∣ year → 400 ∣ year)

instance (year : Int) : Decidable (LeapYear year) := inferInstanceAs (Decidable (_ ∧ _))

/-- Twelve months, of 31 days but for the four of 30 and the second. -/
structure IsDay (year : Int) (month day : Nat) : Prop where
  isMonth : 1 ≤ month ∧ month ≤ 12
  long : 1 ≤ day ∧ day ≤ 31
  short : month = 4 ∨ month = 6 ∨ month = 9 ∨ month = 11 → day ≤ 30
  february : month = 2 → day ≤ 29 ∧ (day = 29 → LeapYear year)

theorem isLeap_iff (year : Int) : isLeap year = true ↔ LeapYear year := by
  simp only [isLeap, LeapYear, Bool.and_eq_true, Bool.or_eq_true, beq_iff_eq, bne_iff_ne]
  omega

theorem daysIn_february (year : Int) : daysIn year 2 = if LeapYear year then 29 else 28 := by
  by_cases h : LeapYear year
  · rw [if_pos h, daysIn, if_pos ((isLeap_iff year).mpr h)]
  · rw [if_neg h, daysIn, if_neg fun he => h ((isLeap_iff year).mp he)]

theorem isDay_iff {year : Int} {month day : Nat} : 1 ≤ day ∧ day ≤ daysIn year month ↔ IsDay year month day := by
  by_cases h2 : month = 2
  · subst h2
    rw [daysIn_february]
    constructor
    · intro h
      by_cases hleap : LeapYear year
      · rw [if_pos hleap] at h
        exact ⟨by decide, by omega, by omega, fun _ => ⟨h.2, fun _ => hleap⟩⟩
      · rw [if_neg hleap] at h
        exact ⟨by decide, by omega, by omega, fun _ => ⟨by omega, by omega⟩⟩
    · intro h
      obtain ⟨hle, hday⟩ := h.february rfl
      refine ⟨h.long.1, ?_⟩
      split
      · exact hle
      · rename_i hno
        have : day ≠ 29 := fun he => hno (hday he)
        omega
  · constructor
    · rintro ⟨hday, hle⟩
      unfold daysIn at hle
      split at hle
      all_goals exact ⟨by omega, by omega, by omega, by omega⟩
    · rintro ⟨hmonth, hlong, hshort, -⟩
      refine ⟨hlong.1, ?_⟩
      by_cases h30 : month = 4 ∨ month = 6 ∨ month = 9 ∨ month = 11
      · have hday := hshort h30
        rcases h30 with rfl | rfl | rfl | rfl <;> exact hday
      · have h31 : month = 1 ∨ month = 3 ∨ month = 5 ∨ month = 7 ∨ month = 8 ∨ month = 10 ∨ month = 12 := by omega
        rcases h31 with rfl | rfl | rfl | rfl | rfl | rfl | rfl <;> exact hlong.2

end ScriptLang.Date
