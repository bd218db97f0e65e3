/-
  ScriptLang.Proofs.Number.Written — doubles and integers read back from their texts.

  - `shortest_reads`: the decimal found for a finite double reads as that double.
  - `ofChars?_pointed`: digits with a point, or with none, read as the decimal that they write.
  - `positional_reads`: digits put around a point keep the value of their decimal.
  - `Numeral.integer?_toDigits` / `Numeral.double?_pointed`: written integers and doubles read back.
  - `Numeral.integer?_nonneg` / `Numeral.double?_plain`: what is read without a sign has none.
-/

import ScriptLang.Proofs.Number.Rounding
import ScriptLang.Tree.Literal

namespace ScriptLang

namespace Decimal

theorem toDouble_eq (negative : Bool) (d : Decimal) :
    d.toDouble negative = .ofRatio negative (d.digits * 10 ^ d.exponent.toNat) (10 ^ (-d.exponent).toNat) := by
  unfold toDouble
  split
  · rw [show (-d.exponent).toNat = 0 by omega, Nat.pow_zero]
    rfl
  · rw [show d.exponent.toNat = 0 by omega, Nat.pow_zero, Nat.mul_one]
    rfl

/-- Moving digits between the number and the exponent changes nothing. -/
theorem toDouble_shift {negative : Bool} {n a z : Nat} {e f : Int} (h : a + f = z + e) :
    toDouble negative ⟨n * 10 ^ a, f⟩ = toDouble negative ⟨n * 10 ^ z, e⟩ := by
  rw [toDouble_eq, toDouble_eq]
  refine Double.ofRatio_eq (Nat.pow_pos (by decide)) (Nat.pow_pos (by decide)) ?_
  simp only [Nat.mul_assoc, ← Nat.pow_add]
  congr 2
  omega

end Decimal

/-! ## The search -/

namespace Double

variable {x : Double}

theorem withDigits?_reads {tie : Tie} {n : Nat} {d : Decimal} (h : x.withDigits? tie n = some d) :
    d.toDouble x.negative = x := by
  unfold withDigits? at h
  simp only at h
  split at h
  · rename_i hb
    have both {e : Decimal} (he : some e = some d) (hr : e.toDouble x.negative = x) : d.toDouble x.negative = x :=
      Option.some.inj he ▸ hr
    split at h
    · exact both h hb.1
    split at h
    · exact both h hb.2
    split at h
    · exact both h hb.2
    · split at h
      · exact both h hb.1
      · exact both h hb.2
  split at h
  · cases h; assumption
  split at h
  · cases h; assumption
  · cases h

theorem exact_reads (h : x.isFinite = true) : x.exact.toDouble x.negative = x := by
  obtain ⟨k, hk⟩ : ∃ k : Nat, k = 1074 := ⟨_, rfl⟩
  have hone : one = 2 ^ k := by
    rw [← Nat.one_shiftLeft k, hk]
    rfl
  rw [exact, show (-1074 : Int) = -(k : Int) by omega, ← hk, Decimal.toDouble_eq]
  simp only [Int.neg_neg, Int.toNat_natCast, show (-(k : Int)).toNat = 0 by omega, Nat.pow_zero, Nat.mul_one]
  refine Eq.trans (ofRatio_eq (Nat.pow_pos (by decide)) one_pos ?_) (ofRatio_units h)
  rw [hone, Nat.mul_assoc, Nat.pow_eq, ← Nat.mul_pow]

theorem shortest_reads (tie : Tie) (h : x.isFinite = true) : (x.shortest tie).toDouble x.negative = x := by
  unfold shortest
  cases hf : (List.range' 1 17).findSome? (x.withDigits? tie) with
  | none => exact exact_reads h
  | some d =>
    obtain ⟨n, -, hn⟩ := List.exists_of_findSome?_eq_some hf
    exact withDigits?_reads hn

end Double

/-! ## Digits and a point -/

/-- A run of characters of one class is taken whole, where no such character follows it. -/
theorem takeWhile_run {p : Char → Bool} {u v : List Char} (hu : ∀ c ∈ u, p c = true)
    (hv : ∀ c ∈ v.head?, p c = false) : (u ++ v).takeWhile p = u ∧ (u ++ v).dropWhile p = v := by
  rw [List.takeWhile_append_of_pos hu, List.dropWhile_append_of_pos hu]
  cases v with
  | nil => simp
  | cons c v => simp [hv c rfl]

/-- A mark between texts stands in front of each but the first. -/
theorem intercalate_mark (mark : Char) (text : List Char) (texts : List (List Char)) :
    [mark].intercalate (text :: texts) = text ++ texts.flatMap (mark :: ·) := by
  induction texts generalizing text with
  | nil => simp [List.intercalate]
  | cons next texts ih =>
    have hi := ih next
    simp only [List.intercalate, List.intersperse_cons_cons, List.flatten_cons] at hi ⊢
    rw [hi, List.flatMap_cons, List.singleton_append, List.cons_append]

/-- What is written before and after a point. -/
structure Digits (parts : List Char × List Char) : Prop where
  whole_ne_nil : parts.1 ≠ []
  whole : ∀ c ∈ parts.1, c.isDigit = true
  fraction : ∀ c ∈ parts.2, c.isDigit = true

namespace Digits

variable {parts : List Char × List Char}

/-- The decimal that they write. -/
def decimal (parts : List Char × List Char) : Decimal :=
  ⟨Nat.ofDigitChars 10 (parts.1 ++ parts.2) 0, -(parts.2.length : Int)⟩

theorem ofChars?_pointed (h : Digits parts) : Decimal.ofChars? (Double.pointed parts) = some (decimal parts) := by
  obtain ⟨whole, fraction⟩ := parts
  have hcut (n : Nat) : Decimal.cutExponent n 0 = 0 := by
    unfold Decimal.cutExponent
    omega
  unfold Decimal.ofChars? Double.pointed
  simp only
  split
  · rename_i hf
    subst hf
    have hw := takeWhile_run (v := []) h.whole nofun
    rw [List.append_nil] at hw
    simp only [hw.1, hw.2, Decimal.splitFraction, List.append_nil, if_neg h.whole_ne_nil, Decimal.exponent?, hcut,
      Option.map_some, decimal]
    rfl
  · have hw := takeWhile_run (v := '.' :: fraction) h.whole fun c hc => by cases hc; rfl
    have hf := takeWhile_run (v := []) h.fraction nofun
    rw [List.append_nil] at hf
    have hne : whole ++ fraction ≠ [] := fun he => h.whole_ne_nil (List.append_eq_nil_iff.mp he).1
    simp only [hw.1, hw.2, Decimal.splitFraction, hf.1, hf.2, if_neg hne, Decimal.exponent?, hcut, Option.map_some,
      decimal, Int.zero_sub]

theorem pointed_head (h : Digits parts) : ∃ c cs, Double.pointed parts = c :: cs ∧ c.isDigit = true := by
  obtain ⟨whole, fraction⟩ := parts
  cases whole with
  | nil => exact absurd rfl h.whole_ne_nil
  | cons c whole =>
    unfold Double.pointed
    split
    · exact ⟨c, whole, rfl, h.whole c (by simp)⟩
    · exact ⟨c, _, rfl, h.whole c (by simp)⟩

theorem digit_or_point (h : Digits parts) : ∀ c ∈ Double.pointed parts, c.isDigit = true ∨ c = '.' := by
  have hw : ∀ c ∈ parts.1, c.isDigit = true ∨ c = '.' := fun c hc => .inl (h.whole c hc)
  unfold Double.pointed
  split
  · exact hw
  · exact List.forall_mem_append.mpr ⟨hw, List.forall_mem_cons.mpr ⟨.inr rfl, fun c hc => .inl (h.fraction c hc)⟩⟩

/-- Digits put around a point write the number that they write without one, times a power of
    ten, or with as many digits behind the point. -/
theorem positional_digits {digits : List Char} (hd : ∀ c ∈ digits, c.isDigit = true) (point : Int) :
    Digits (Decimal.positional digits point) ∧ ∃ a b : Nat, (a : Int) - b = point - digits.length ∧
      decimal (Decimal.positional digits point) = ⟨Nat.ofDigitChars 10 digits 0 * 10 ^ a, -(b : Int)⟩ := by
  have hzero {n : Nat} : ∀ c ∈ List.replicate n '0', c.isDigit = true := fun c hc => by
    rw [(List.mem_replicate.mp hc).2]; rfl
  unfold Decimal.positional
  split
  · refine ⟨⟨nofun, fun c hc => by simp at hc; subst hc; rfl, ?_⟩, 0, (-point).toNat + digits.length, by omega, ?_⟩
    · exact List.forall_mem_append.mpr ⟨hzero, hd⟩
    · simp [decimal, Nat.ofDigitChars_append, Nat.ofDigitChars_cons]
  · generalize hn : point.toNat = n
    refine ⟨⟨?_, List.forall_mem_append.mpr ⟨fun c hc => hd c (List.mem_of_mem_take hc), hzero⟩,
      fun c hc => hd c (List.mem_of_mem_drop hc)⟩, n - digits.length, digits.length - n, by omega, ?_⟩
    · intro he
      have := congrArg List.length he
      simp only [List.length_append, List.length_take, List.length_replicate, List.length_nil] at this
      omega
    · rcases Nat.le_total n digits.length with hle | hle
      · simp [decimal, Nat.sub_eq_zero_of_le hle]
      · simp [decimal, List.take_of_length_le hle, List.drop_of_length_le hle, Nat.sub_eq_zero_of_le hle,
          Nat.ofDigitChars_append, Nat.mul_comm]

end Digits

/-! ## The digits of a decimal -/

namespace Decimal

/-- Only zeros are left out at the end. -/
theorem significant_append (d : Decimal) : ∃ z, Nat.toDigits 10 d.digits = d.significant.1 ++ List.replicate z '0' := by
  have h := List.takeWhile_append_dropWhile (p := (· == '0')) (l := (Nat.toDigits 10 d.digits).reverse)
  refine ⟨((Nat.toDigits 10 d.digits).reverse.takeWhile (· == '0')).length, ?_⟩
  have hz : (Nat.toDigits 10 d.digits).reverse.takeWhile (· == '0') =
      List.replicate ((Nat.toDigits 10 d.digits).reverse.takeWhile (· == '0')).length '0' :=
    List.eq_replicate_iff.mpr ⟨rfl, fun c hc => beq_iff_eq.mp (List.all_eq_true.mp List.all_takeWhile c hc)⟩
  rw [← List.reverse_inj, List.reverse_append, List.reverse_replicate, ← hz, significant, List.reverse_reverse, h]

theorem toDigits_isDigit (n : Nat) : ∀ c ∈ Nat.toDigits 10 n, c.isDigit = true :=
  fun _ hc => Nat.isDigit_of_mem_toDigits (by decide) (by decide) hc

/-- The digits without the zeros, and where the point stands among them, give the decimal. -/
theorem significant_value (d : Decimal) : (∀ c ∈ d.significant.1, c.isDigit = true) ∧ ∃ z : Nat,
    d.digits = Nat.ofDigitChars 10 d.significant.1 0 * 10 ^ z ∧ d.significant.2 = d.significant.1.length + z + d.exponent := by
  obtain ⟨z, hz⟩ := d.significant_append
  refine ⟨fun c hc => toDigits_isDigit d.digits c (hz ▸ List.mem_append_left _ hc), z, ?_, ?_⟩
  · rw [Nat.mul_comm, ← Nat.ofDigitChars_replicate_zero, ← Nat.ofDigitChars_append, ← hz, Nat.ofDigitChars_ten_toDigits]
  · have := congrArg List.length hz
    rw [List.length_append, List.length_replicate] at this
    simp only [significant, List.length_reverse] at this ⊢
    omega

/-- A decimal written out reads as what it stands for. -/
theorem positional_reads (d : Decimal) : Digits (positional d.significant.1 d.significant.2) ∧
    ∀ negative, (Digits.decimal (positional d.significant.1 d.significant.2)).toDouble negative = d.toDouble negative := by
  obtain ⟨hd, z, hvalue, hpoint⟩ := d.significant_value
  obtain ⟨hdigits, a, b, hab, hdecimal⟩ := Digits.positional_digits hd d.significant.2
  refine ⟨hdigits, fun negative => ?_⟩
  rw [hdecimal, toDouble_shift (z := z) (e := d.exponent) (by omega), ← hvalue]

end Decimal

/-! ## Doubles -/

namespace Double

variable {x : Double}

/-- The digits of a finite double around its point. -/
def sourceParts (x : Double) : List Char × List Char :=
  if x.units % one = 0 ∧ x.units / one < 1 <<< 63 then (Nat.toDigits 10 (x.units / one), ['0'])
  else Decimal.positional (x.shortest .up).significant.1 (x.shortest .up).significant.2

theorem sourceMagnitude_eq (x : Double) : x.sourceMagnitude = pointed x.sourceParts := by
  unfold sourceMagnitude sourceParts
  split
  · rfl
  · rfl

/-- The text of a finite double reads back as that double. -/
theorem sourceParts_reads (h : x.isFinite = true) :
    Digits x.sourceParts ∧ (Digits.decimal x.sourceParts).toDouble x.negative = x := by
  unfold sourceParts
  split
  · rename_i hw
    refine ⟨⟨Nat.toDigits_ne_nil, Decimal.toDigits_isDigit _, fun c hc => by simp at hc; subst hc; rfl⟩, ?_⟩
    refine Eq.trans ?_ (ofRatio_units h)
    rw [Decimal.toDouble_eq]
    refine ofRatio_eq (Nat.pow_pos (by decide)) one_pos ?_
    have hu : x.units / one * one = x.units := Nat.div_mul_cancel (Nat.dvd_of_mod_eq_zero hw.1)
    have hd : Digits.decimal (Nat.toDigits 10 (x.units / one), ['0']) = ⟨10 * (x.units / one), -1⟩ := by
      simp [Digits.decimal, Nat.ofDigitChars_append, Nat.ofDigitChars_cons]
    rw [hd]
    show 10 * (x.units / one) * 10 ^ 0 * one = x.units * 10 ^ 1
    rw [Nat.pow_zero, Nat.mul_one, Nat.pow_one, Nat.mul_assoc, hu, Nat.mul_comm]
  · have hr := (x.shortest .up).positional_reads
    exact ⟨hr.1, (hr.2 x.negative).trans (shortest_reads .up h)⟩

theorem two_pow_63_sourceParts : (ofRatio false (1 <<< 63) 1).sourceParts = ("9223372036854776000".toList, []) := by
  decide +kernel

/-- Digits without a point stand for a double that no integer of 64 bits reaches. -/
theorem le_of_no_fraction (h : x.isFinite = true) (hn : x.negative = false) (hf : x.sourceParts.2 = []) :
    1 <<< 63 ≤ Nat.ofDigitChars 10 x.sourceParts.1 0 := by
  refine Nat.le_of_not_lt ?_
  intro hlt
  have hx : ofRatio false (Nat.ofDigitChars 10 x.sourceParts.1 0) 1 = x := by
    have hr := (sourceParts_reads h).2
    rw [hn, Decimal.toDouble_eq] at hr
    simpa [Digits.decimal, hf] using hr
  have hw := nearest_whole (hx.symm ▸ h)
  rw [hx] at hw
  -- The double is whole and not below 2^63, so it is 2^63, whose digits are known.
  have hge : 1 <<< 63 ≤ x.units / one := by
    refine Nat.le_of_not_lt ?_
    intro hsmall
    rw [sourceParts, if_pos ⟨hw.1, hsmall⟩] at hf
    cases hf
  have hunits : x.units = (1 <<< 63) * one :=
    Nat.le_antisymm (hw.2 hlt) ((Nat.le_div_iff_mul_le one_pos).mp hge)
  have hpow : x = ofRatio false (1 <<< 63) 1 := by
    rw [← ofRatio_units h, hn, hunits]
    exact ofRatio_eq one_pos Nat.one_pos (by rw [Nat.mul_one])
  rw [hpow, two_pow_63_sourceParts] at hlt
  exact absurd hlt (by decide)

end Double

/-! ## Number tokens -/

namespace Numeral

theorem splitSign_digit {c : Char} {cs : List Char} (h : c.isDigit = true) :
    Decimal.splitSign (c :: cs) = (false, c :: cs) := by
  unfold Decimal.splitSign
  split
  · rename_i he
    cases he
    cases h
  · rename_i he
    cases he
    cases h
  · rfl

/-- The integer of digits and a sign in front of them, which may be left out. -/
def signed (cs : List Char) : Int :=
  match Decimal.splitSign cs with
  | (true, digits) => -(Nat.ofDigitChars 10 digits 0 : Int)
  | (false, digits) => Nat.ofDigitChars 10 digits 0

theorem signed_digits {digits : List Char} (h : ∀ c ∈ digits, c.isDigit = true) :
    signed digits = Nat.ofDigitChars 10 digits 0 := by
  cases digits with
  | nil => rfl
  | cons c digits => rw [signed, splitSign_digit (h c (List.mem_cons_self ..))]

theorem signed_minus (digits : List Char) : signed ('-' :: digits) = -(Nat.ofDigitChars 10 digits 0 : Int) := rfl

theorem signed_plus (digits : List Char) : signed ('+' :: digits) = Nat.ofDigitChars 10 digits 0 := rfl

/-- What starts with a digit is no word. -/
theorem not_word {c : Char} (cs : List Char) (h : c.isDigit = true) :
    (c :: cs).map Char.toLower ∉ infinityWords ∧ (c :: cs).map Char.toLower ≠ nanWord := by
  have hl : c.toLower = c := by
    simp only [Char.isDigit, Bool.and_eq_true, decide_eq_true_eq] at h
    exact dif_neg fun hu => absurd (UInt32.le_trans hu.1 h.2) (by decide)
  have hne {d : Char} {ds : List Char} (hd : d.isDigit = false) : (c :: cs).map Char.toLower ≠ d :: ds := by
    intro he
    rw [List.map_cons, hl] at he
    rw [(List.cons.inj he).1, hd] at h
    cases h
  refine ⟨fun hm => ?_, hne (d := 'n') rfl⟩
  simp only [infinityWords, List.mem_cons, List.not_mem_nil, or_false] at hm
  rcases hm with he | he
  · exact hne (d := 'i') rfl he
  · exact hne (d := 'i') rfl he

theorem double?_digit {c : Char} {cs : List Char} (h : c.isDigit = true) :
    double? (c :: cs) = (Decimal.ofChars? (c :: cs)).map (Decimal.toDouble false) := by
  unfold double?
  simp only [splitSign_digit h, if_neg (not_word cs h).1, if_neg (not_word cs h).2]

theorem double?_pointed {parts : List Char × List Char} (h : Digits parts) :
    double? (Double.pointed parts) = some ((Digits.decimal parts).toDouble false) := by
  obtain ⟨c, cs, hc, hd⟩ := h.pointed_head
  have hr := h.ofChars?_pointed
  rw [hc] at hr ⊢
  rw [double?_digit hd, hr]
  rfl

/-- A point leaves no integer, and neither does a number past 63 bits. -/
theorem integer?_pointed {parts : List Char × List Char} (h : Digits parts)
    (hn : parts.2 = [] → 1 <<< 63 ≤ Nat.ofDigitChars 10 parts.1 0) : integer? (Double.pointed parts) = none := by
  obtain ⟨c, cs, hc, hd⟩ := h.pointed_head
  unfold integer?
  rw [hc, splitSign_digit hd, ← hc]
  simp only [Option.bind_eq_bind, Option.bind_eq_none_iff]
  intro n hdigits
  unfold Decimal.digits? at hdigits
  split at hdigits
  · rename_i hall
    unfold Double.pointed at hall hdigits
    split at hall
    · rename_i hf
      rw [if_pos hf] at hdigits
      have hge := hn hf
      rw [Option.some.inj hdigits] at hge
      refine if_neg ?_
      intro hle
      have : (Int64.maxValue).toInt = (1 <<< 63) - 1 := by decide
      simp only [Bool.false_eq_true, if_false] at hle
      omega
    · have := List.all_eq_true.mp hall.2 '.' (by simp)
      cases this
  · cases hdigits

theorem integer?_toDigits {n : Int64} (h : 0 ≤ n.toInt) : integer? (Nat.toDigits 10 n.toInt.natAbs) = some n := by
  have hdigits : Decimal.digits? (Nat.toDigits 10 n.toInt.natAbs) = some n.toInt.natAbs := by
    unfold Decimal.digits?
    rw [if_pos ⟨Nat.toDigits_ne_nil, List.all_eq_true.mpr (Decimal.toDigits_isDigit _)⟩, Nat.ofDigitChars_ten_toDigits]
  obtain ⟨c, cs, hc⟩ := List.exists_cons_of_ne_nil (Nat.toDigits_ne_nil (n := n.toInt.natAbs) (b := 10))
  have hd : c.isDigit = true := Decimal.toDigits_isDigit n.toInt.natAbs c (by rw [hc]; simp)
  unfold integer?
  rw [hc, splitSign_digit hd, ← hc]
  have hn : (n.toInt.natAbs : Int) = n.toInt := Int.natAbs_of_nonneg h
  simp only [hdigits, Option.bind_eq_bind, Option.bind_some, Bool.false_eq_true, if_false, hn]
  rw [if_pos ⟨n.minValue_le_toInt, n.toInt_le⟩, Int64.ofInt_toInt]

/-- An integer written without a sign is not negative. -/
theorem integer?_nonneg {c : Char} {cs : List Char} {n : Int64} (hd : c.isDigit = true)
    (h : integer? (c :: cs) = some n) : 0 ≤ n.toInt := by
  unfold integer? at h
  rw [splitSign_digit hd] at h
  simp only [Option.bind_eq_bind, Option.bind_eq_some_iff, Bool.false_eq_true, if_false] at h
  obtain ⟨m, -, hm⟩ := h
  split at hm
  · rename_i hle
    cases hm
    rw [Int64.toInt_ofInt_of_le (by omega) (by rw [Int64.toInt_maxValue] at hle; omega)]
    omega
  · cases hm

/-- A double written without a sign has none, and is a number. -/
theorem double?_plain {c : Char} {cs : List Char} {x : Double} (hd : c.isDigit = true)
    (h : double? (c :: cs) = some x) : x.negative = false ∧ x.isNaN = false := by
  rw [double?_digit hd, Option.map_eq_some_iff] at h
  obtain ⟨d, -, rfl⟩ := h
  rw [Decimal.toDouble_eq]
  exact ⟨rfl, Double.ofRatio_not_nan ..⟩

end Numeral

end ScriptLang
