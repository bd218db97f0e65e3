/-
  ScriptLang.Proofs.Number.Rounding — what rounding to doubles keeps.

  - `nearest_scale`: only the ratio counts, not how it is written.
  - `nearest_units`: a finite double is nearest to its own value.
  - `nearest_whole`: a whole number rounds to a whole number, and one below 2^63 to at most 2^63.
-/

import Mathlib.Algebra.Group.Nat.Defs
import ScriptLang.Number.Double

namespace ScriptLang.Double

theorem one_eq : ∃ k, one = 2 ^ k := by
  obtain ⟨k, hk⟩ : ∃ k : Nat, k = 1074 := ⟨_, rfl⟩
  refine ⟨k, ?_⟩
  rw [← Nat.one_shiftLeft k, hk]
  rfl

theorem one_pos : 0 < one := by
  obtain ⟨k, hk⟩ := one_eq
  rw [hk]
  exact Nat.two_pow_pos k

/-! ## Ratios -/

theorem divideToEven_scale (num den : Nat) {k : Nat} (hk : 0 < k) :
    divideToEven (num * k) (den * k) = divideToEven num den := by
  have hr : 2 * (num % den * k) = 2 * (num % den) * k := (Nat.mul_assoc ..).symm
  unfold divideToEven
  simp only [Nat.mul_div_mul_right _ _ hk, Nat.mul_mod_mul_right, hr, Nat.mul_lt_mul_right hk]

theorem divideToEven_mul (q : Nat) {den : Nat} (hd : 0 < den) : divideToEven (q * den) den = q := by
  unfold divideToEven
  simp only [Nat.mul_div_cancel _ hd, Nat.mul_mod_left]
  rw [if_pos (by omega)]

theorem divideToEven_le (num den : Nat) : divideToEven num den ≤ num / den + 1 := by
  unfold divideToEven
  dsimp only
  split
  · omega
  · split <;> omega

theorem le_divideToEven (num den : Nat) : num / den ≤ divideToEven num den := by
  unfold divideToEven
  dsimp only
  split
  · omega
  · split <;> omega

theorem nearest_scale (num den : Nat) {k : Nat} (hk : 0 < k) : nearest (num * k) (den * k) = nearest num den := by
  have hn : num * k * one = num * one * k := Nat.mul_right_comm ..
  have hd (s : Nat) : (den * k) <<< s = (den <<< s) * k := by
    rw [Nat.shiftLeft_eq, Nat.shiftLeft_eq, Nat.mul_right_comm]
  unfold nearest
  simp only [hn, hd, Nat.mul_div_mul_right _ _ hk, divideToEven_scale _ _ hk]

/-- Two ways of writing one ratio give one double. -/
theorem ofRatio_eq {negative : Bool} {a b c d : Nat} (hb : 0 < b) (hd : 0 < d) (h : a * d = c * b) :
    ofRatio negative a b = ofRatio negative c d := by
  have key : nearest a b = nearest c d := by
    rw [← nearest_scale a b hd, ← nearest_scale c d hb, h, Nat.mul_comm b d]
  simp only [ofRatio, key]

theorem ofRatio_not_nan (negative : Bool) (num den : Nat) : (ofRatio negative num den).isNaN = false :=
  decide_eq_false (Nat.not_lt_of_le (Nat.min_le_right _ _))

/-! ## Fields -/

theorem magnitude_eq (x : Double) : x.magnitude = (x.scale <<< 52) + x.significand := by
  unfold significand scale
  omega

theorem le_significand (x : Double) : x.scale = 0 ∨ 1 <<< 52 ≤ x.significand := by
  unfold significand scale
  omega

/-- The value of a double whose fields are given; the significand may be one past the greatest. -/
theorem units_of_fields {x : Double} {s q : Nat} (hm : x.magnitude = (s <<< 52) + q) (hq : q ≤ 1 <<< 53)
    (hs : s = 0 ∨ 1 <<< 52 ≤ q) : x.units = q <<< s := by
  rcases Nat.lt_or_ge q (1 <<< 53) with hlt | hge
  · have hx : x.scale = s ∧ x.significand = q := by
      unfold significand scale
      omega
    rw [units, hx.1, hx.2]
  · have hx : x.scale = s + 1 ∧ x.significand = 1 <<< 52 := by
      unfold significand scale
      omega
    obtain rfl : q = 1 <<< 53 := Nat.le_antisymm hq hge
    rw [units, hx.1, hx.2, Nat.shiftLeft_eq, Nat.shiftLeft_eq, Nat.pow_succ]
    omega

/-- The scale of a number of units is read off its binary length. -/
theorem log2_units (x : Double) : x.units.log2 - 52 = x.scale := by
  have hlt := x.significand_lt
  have hu : x.units = x.significand * 2 ^ x.scale := Nat.shiftLeft_eq ..
  rcases x.le_significand with h0 | hge
  · rw [hu, h0, Nat.pow_zero, Nat.mul_one]
    rcases Nat.eq_zero_or_pos x.significand with hz | hp
    · simp [hz]
    · have := (Nat.log2_lt (Nat.pos_iff_ne_zero.mp hp) (k := 53)).mpr (by simpa using hlt)
      omega
  · have hlog : x.units.log2 = 52 + x.scale := by
      have hne : x.units ≠ 0 := by
        rw [hu]
        exact Nat.pos_iff_ne_zero.mp (Nat.mul_pos (Nat.lt_of_lt_of_le (by decide) hge) (Nat.two_pow_pos _))
      refine (Nat.log2_eq_iff hne).mpr ⟨?_, ?_⟩
      · rw [hu, Nat.pow_add]
        exact Nat.mul_le_mul_right _ (by simpa using hge)
      · rw [hu, Nat.add_right_comm, Nat.pow_add]
        exact Nat.mul_lt_mul_of_pos_right (by simpa using hlt) (Nat.two_pow_pos _)
    omega

theorem nearest_units {x : Double} (h : x.isFinite = true) : nearest x.units one = x.magnitude := by
  have hn : x.units * one = x.significand * (one <<< x.scale) := by
    rw [units, Nat.shiftLeft_eq, Nat.shiftLeft_eq, Nat.mul_assoc, Nat.mul_comm one]
  have hpos : 0 < one <<< x.scale := by
    rw [Nat.shiftLeft_eq]
    exact Nat.mul_pos one_pos (Nat.two_pow_pos _)
  unfold nearest
  simp only [Nat.mul_div_cancel _ one_pos, log2_units]
  rw [hn, divideToEven_mul _ hpos, ← magnitude_eq]
  exact Nat.min_eq_left (Nat.le_of_lt (of_decide_eq_true h))

theorem ofRatio_units {x : Double} (h : x.isFinite = true) : ofRatio x.negative x.units one = x := by
  obtain ⟨negative, magnitude, hm⟩ := x
  simp only [ofRatio, nearest_units h]

/-! ## Whole numbers -/

/-- The value of a rounded number that did not become infinite. -/
theorem ofRatio_one_units {negative : Bool} {n s : Nat} (hs : (n * one).log2 - 52 = s)
    (h : (ofRatio negative n 1).isFinite = true) : (ofRatio negative n 1).units = divideToEven (n * one) (2 ^ s) <<< s := by
  have hq := divideToEven_le (n * one) (2 ^ s)
  have hq' := le_divideToEven (n * one) (2 ^ s)
  refine units_of_fields ?_ ?_ ?_
  · have hm : nearest n 1 < infinite := of_decide_eq_true h
    simp only [nearest, Nat.div_one, hs, Nat.one_shiftLeft] at hm
    show nearest n 1 = _
    simp only [nearest, Nat.div_one, hs, Nat.one_shiftLeft]
    omega
  · have hlt : n * one < 2 ^ 53 * 2 ^ s := by
      have := Nat.lt_log2_self (n := n * one)
      rw [← Nat.pow_add]
      exact Nat.lt_of_lt_of_le this (Nat.pow_le_pow_right (by decide) (by omega))
    have := (Nat.div_lt_iff_lt_mul (Nat.two_pow_pos s)).mpr hlt
    omega
  · rcases Nat.eq_zero_or_pos s with h0 | hpos
    · exact .inl h0
    · have hne : n * one ≠ 0 := by
        intro he
        simp [he] at hs
        omega
      have hle : 2 ^ 52 * 2 ^ s ≤ n * one := by
        have := Nat.log2_self_le hne
        rwa [← Nat.pow_add, show 52 + s = (n * one).log2 by omega]
      have := (Nat.le_div_iff_mul_le (Nat.two_pow_pos s)).mpr hle
      exact .inr (by omega)

theorem nearest_whole {negative : Bool} {n : Nat} (h : (ofRatio negative n 1).isFinite = true) :
    (ofRatio negative n 1).units % one = 0 ∧
      (n < 1 <<< 63 → (ofRatio negative n 1).units ≤ (1 <<< 63) * one) := by
  obtain ⟨k, hk⟩ := one_eq
  rw [ofRatio_one_units rfl h]
  generalize hs : (n * one).log2 - 52 = s
  rcases Nat.le_total s k with hle | hle
  · -- No digit is lost.
    have hn : n * one = n * 2 ^ (k - s) * 2 ^ s := by
      rw [hk, Nat.mul_assoc, ← Nat.pow_add, Nat.sub_add_cancel hle]
    rw [hn, divideToEven_mul _ (Nat.two_pow_pos s), Nat.shiftLeft_eq, ← hn]
    exact ⟨Nat.mul_mod_left .., fun hlt => Nat.mul_le_mul_right _ (Nat.le_of_lt hlt)⟩
  · have hone : 2 ^ s = 2 ^ (s - k) * one := by rw [hk, ← Nat.pow_add, Nat.sub_add_cancel hle]
    rw [Nat.shiftLeft_eq, hone, ← Nat.mul_assoc]
    refine ⟨Nat.mul_mod_left .., fun hlt => Nat.mul_le_mul_right _ ?_⟩
    rw [divideToEven_scale _ _ one_pos]
    have hj : s - k ≤ 63 := by
      rcases Nat.eq_zero_or_pos (n * one) with hz | hpos
      · have : s = 0 := by rw [← hs, hz]; rfl
        omega
      · have hlog : (n * one).log2 < 63 + k := by
          refine (Nat.log2_lt (Nat.pos_iff_ne_zero.mp hpos)).mpr ?_
          rw [Nat.pow_add, hk]
          exact Nat.mul_lt_mul_of_pos_right (by simpa using hlt) (Nat.two_pow_pos k)
        omega
    have hsplit : 1 <<< 63 = 2 ^ (63 - (s - k)) * 2 ^ (s - k) := by
      rw [← Nat.pow_add, Nat.sub_add_cancel hj, Nat.one_shiftLeft]
    rw [hsplit] at hlt ⊢
    refine Nat.mul_le_mul_right _ (Nat.le_trans (divideToEven_le ..) ?_)
    exact (Nat.div_lt_iff_lt_mul (Nat.two_pow_pos _)).mpr hlt

end ScriptLang.Double
