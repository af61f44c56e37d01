import ListScheduling.Proofs.Double.Addition

/-!
Rounding to nearest keeps the order of values, so adding or subtracting a finite number is monotone.
-/
namespace ListScheduling.Double

section Encoding

variable {x y : Double}

theorem magnitude_of_isInf (h : x.isInf = true) : x.magnitude = 2 ^ 52 * 2 ^ 2046 := by
  simp only [isInf, Bool.and_eq_true, decide_eq_true_eq] at h
  simp [magnitude, significand, place_eq, h.1, h.2]

theorem magnitude_le_top (hx : x.isNaN = false) : x.magnitude ≤ 2 ^ 52 * 2 ^ 2046 := by
  cases hi : x.isInf
  · exact Nat.le_of_lt (magnitude_lt_top (isFinite_of_not hx hi))
  · exact Nat.le_of_eq (magnitude_of_isInf hi)

theorem isInf_inf : inf.isInf = true := by decide

theorem le_of_magnitude_le (hx : x.isNaN = false) (hy : y.isNaN = false) (hxs : x.signBit = false)
    (hys : y.signBit = false) (h : x.magnitude ≤ y.magnitude) : x.le y := by
  rw [magnitude_le_magnitude_iff] at h
  rw [← Bool.not_eq_true, signBit_iff] at hxs hys
  rw [le_iff, totalKey_eq, totalKey_eq, if_neg hxs, if_neg hys]
  exact ⟨hx, hy, .inr (by omega)⟩

theorem le_of_magnitude_ge (hx : x.isNaN = false) (hy : y.isNaN = false) (hxs : x.signBit = true)
    (hys : y.signBit = true) (h : y.magnitude ≤ x.magnitude) : x.le y := by
  have := bits_toNat_lt x
  have := bits_toNat_lt y
  rw [magnitude_le_magnitude_iff] at h
  rw [signBit_iff] at hxs hys
  rw [le_iff, totalKey_eq, totalKey_eq, if_pos hxs, if_pos hys]
  exact ⟨hx, hy, .inr (by omega)⟩

theorem le_of_signBit (hx : x.isNaN = false) (hy : y.isNaN = false) (hxs : x.signBit = true)
    (hys : y.signBit = false) : x.le y := by
  have := bits_toNat_lt x
  rw [signBit_iff] at hxs
  rw [← Bool.not_eq_true, signBit_iff] at hys
  rw [le_iff, totalKey_eq, totalKey_eq, if_pos hxs, if_neg hys]
  exact ⟨hx, hy, .inr (by omega)⟩

theorem le_of_isZero (hx : x.isZero = true) (hy : y.isZero = true) : x.le y := by
  rw [isZero_iff] at hx hy
  have hx' : x.isNaN = false := by rw [Bool.eq_false_iff, ne_eq, isNaN_iff]; omega
  have hy' : y.isNaN = false := by rw [Bool.eq_false_iff, ne_eq, isNaN_iff]; omega
  rw [le_iff, isZero_iff, isZero_iff]
  exact ⟨hx', hy', .inl ⟨hx, hy⟩⟩

theorem le_of_isInf_left (hx : x.isInf = true) (hs : x.signBit = true) (hy : y.isNaN = false) :
    x.le y := by
  have := bits_toNat_lt y
  have hx' := isNaN_eq_false_of_isInf hx
  rw [isInf_iff] at hx
  rw [signBit_iff] at hs
  rw [le_iff, totalKey_eq, totalKey_eq, if_pos hs]
  refine ⟨hx', hy, .inr ?_⟩
  rw [Bool.eq_false_iff, ne_eq, isNaN_iff] at hy
  split <;> omega

theorem eq_of_isInf_le (hx : x.isInf = true) (hs : x.signBit = false) (h : x.le y) : y = x := by
  have := bits_toNat_lt y
  rw [isInf_iff] at hx
  rw [← Bool.not_eq_true, signBit_iff] at hs
  rw [le_iff, totalKey_eq, totalKey_eq, if_neg hs, isZero_iff, isZero_iff] at h
  obtain ⟨-, hy, h⟩ := h
  rw [Bool.eq_false_iff, ne_eq, isNaN_iff] at hy
  refine eq_of_toNat_eq ?_
  split at h <;> omega

theorem eq_of_le_isInf (hy : y.isInf = true) (hs : y.signBit = true) (h : x.le y) : x = y := by
  have := bits_toNat_lt x
  have := bits_toNat_lt y
  rw [isInf_iff] at hy
  rw [signBit_iff] at hs
  rw [le_iff, totalKey_eq, totalKey_eq, if_pos hs, isZero_iff, isZero_iff] at h
  obtain ⟨hx, -, h⟩ := h
  rw [Bool.eq_false_iff, ne_eq, isNaN_iff] at hx
  refine eq_of_toNat_eq ?_
  split at h <;> omega

theorem numEq_refl (hx : x.isNaN = false) : x.numEq x := by
  simp [numEq, hx]

theorem eq_or_isZero_of_numEq (h : x.numEq y) : x = y ∨ x.isZero = true ∧ y.isZero = true := by
  simp only [numEq, Bool.and_eq_true, Bool.not_eq_true', Bool.or_eq_true, beq_iff_eq] at h
  exact h.2.symm

theorem eq_of_totalKey_eq (h : x.totalKey = y.totalKey) : x = y := by
  have := bits_toNat_lt x
  have := bits_toNat_lt y
  rw [totalKey_eq, totalKey_eq] at h
  refine eq_of_toNat_eq ?_
  split at h <;> split at h <;> omega

theorem numEq_of_le_of_le (h₁ : x.le y) (h₂ : y.le x) : x.numEq y := by
  obtain ⟨hx, hy, h₁⟩ := (le_iff x y).1 h₁
  obtain ⟨-, -, h₂⟩ := (le_iff y x).1 h₂
  by_cases hz : x.isZero = true ∧ y.isZero = true
  · simp [numEq, hx, hy, hz.1, hz.2]
  · have hk : x.totalKey = y.totalKey := by
      rcases h₁ with h₁ | h₁
      · exact absurd h₁ hz
      rcases h₂ with h₂ | h₂
      · exact absurd ⟨h₂.2, h₂.1⟩ hz
      omega
    simp [numEq, hy, eq_of_totalKey_eq hk]

theorem numEq_of_isZero (hx : x.isZero = true) (hy : y.isZero = true) : x.numEq y :=
  numEq_of_le_of_le (le_of_isZero hx hy) (le_of_isZero hy hx)

theorem numEq_symm (h : x.numEq y) : y.numEq x := by
  rcases eq_or_isZero_of_numEq h with rfl | ⟨hx0, hy0⟩
  · exact h
  · exact numEq_of_isZero hy0 hx0

theorem le_of_numEq (h : x.numEq y) : x.le y := by
  rcases eq_or_isZero_of_numEq h with rfl | ⟨hx0, hy0⟩
  · simp only [numEq, Bool.and_eq_true, Bool.not_eq_true'] at h
    exact le_refl_of_not_isNaN h.1.1
  · exact le_of_isZero hx0 hy0

theorem numEq_trans {z : Double} (h₁ : x.numEq y) (h₂ : y.numEq z) : x.numEq z :=
  numEq_of_le_of_le (le_trans (le_of_numEq h₁) (le_of_numEq h₂))
    (le_trans (le_of_numEq (numEq_symm h₂)) (le_of_numEq (numEq_symm h₁)))

theorem maxNum_numEq_left (h : y.le x) : (maxNum x y).numEq x := by
  have hx := isNaN_eq_false_of_le_right h
  have hy := isNaN_eq_false_of_le_left h
  unfold maxNum
  rw [if_neg (by simp [hy]), if_neg (by simp [hx])]
  split
  · exact numEq_refl hx
  · rename_i hlt
    exact numEq_of_le_of_le h (le_of_not_lt hx hy (Bool.eq_false_iff.2 hlt))

theorem le_of_isZero_left (hx : x.isZero = true) (hy : y.isNaN = false) (hys : y.signBit = false) :
    x.le y := by
  have hx' : x.isNaN = false := by
    rw [isZero_iff] at hx
    rw [Bool.eq_false_iff, ne_eq, isNaN_iff]
    omega
  rw [isZero_iff_totalKey] at hx
  rw [← Bool.not_eq_true, signBit_iff] at hys
  rw [le_iff, totalKey_eq y, if_neg hys]
  exact ⟨hx', hy, .inr (by omega)⟩

theorem le_of_isZero_right (hx : x.isNaN = false) (hxs : x.signBit = true) (hy : y.isZero = true) :
    x.le y := by
  have := bits_toNat_lt x
  have hy' : y.isNaN = false := by
    rw [isZero_iff] at hy
    rw [Bool.eq_false_iff, ne_eq, isNaN_iff]
    omega
  rw [isZero_iff_totalKey] at hy
  rw [signBit_iff] at hxs
  rw [le_iff, totalKey_eq x, if_pos hxs]
  exact ⟨hx, hy', .inr (by omega)⟩

end Encoding

section Negation

variable {x : Double}

theorem toNat_neg (x : Double) :
    (-x).bits.toNat = if x.signBit then x.bits.toNat - 2 ^ 63 else x.bits.toNat + 2 ^ 63 := by
  have hx := bits_toNat_lt x
  show (x.bits ^^^ signMask).toNat = _
  rw [UInt64.toNat_xor, show signMask.toNat = 2 ^ 63 from rfl, signBit_eq]
  have hmod : (x.bits.toNat ^^^ 2 ^ 63) % 2 ^ 63 = x.bits.toNat % 2 ^ 63 := by
    rw [Nat.xor_mod_two_pow, Nat.mod_self, Nat.xor_zero]
  have hdiv : (x.bits.toNat ^^^ 2 ^ 63) / 2 ^ 63 = x.bits.toNat / 2 ^ 63 ^^^ 1 := by
    rw [Nat.xor_div_two_pow, Nat.div_self (Nat.two_pow_pos 63)]
  have hsplit := Nat.div_add_mod (x.bits.toNat ^^^ 2 ^ 63) (2 ^ 63)
  by_cases hs : 2 ^ 63 ≤ x.bits.toNat
  · have h1 : x.bits.toNat / 2 ^ 63 = 1 := by omega
    rw [h1, Nat.xor_self] at hdiv
    rw [if_pos (decide_eq_true hs)]
    omega
  · have h0 : x.bits.toNat / 2 ^ 63 = 0 := by omega
    rw [h0, Nat.zero_xor] at hdiv
    rw [if_neg (by simpa using hs)]
    omega

theorem signBit_neg (x : Double) : (-x).signBit = !x.signBit := by
  have := bits_toNat_lt x
  have h := toNat_neg x
  cases hs : x.signBit
  · rw [hs, if_neg (by decide)] at h
    rw [← Bool.not_eq_true, signBit_iff] at hs
    simp only [Bool.not_false, signBit_iff, h]
    omega
  · rw [hs, if_pos rfl] at h
    rw [signBit_iff] at hs
    simp only [Bool.not_true, ← Bool.not_eq_true, signBit_iff, h]
    omega

theorem toNat_mod_neg (x : Double) : (-x).bits.toNat % 2 ^ 63 = x.bits.toNat % 2 ^ 63 := by
  have := bits_toNat_lt x
  rw [toNat_neg, signBit_eq]
  split <;> rename_i h <;> simp at h <;> omega

theorem magnitude_neg (x : Double) : (-x).magnitude = x.magnitude :=
  Nat.le_antisymm (magnitude_le_magnitude_iff.2 (Nat.le_of_eq (toNat_mod_neg x)))
    (magnitude_le_magnitude_iff.2 (Nat.le_of_eq (toNat_mod_neg x).symm))

theorem isFinite_neg (x : Double) : (-x).isFinite = x.isFinite := by
  have h := toNat_mod_neg x
  have hx := bits_toNat_lt x
  have hn := bits_toNat_lt (-x)
  apply Bool.eq_iff_iff.2
  rw [isFinite_iff, isFinite_iff]
  omega

theorem units_neg (x : Double) : (-x).units = -x.units := by
  unfold units
  rw [signBit_neg, magnitude_neg]
  cases x.signBit <;> simp

end Negation

section Rounding

variable {v₁ v₂ r₁ : Nat} {x₁ x₂ : Double}

theorem Nearest.magnitude_le (h₁ : Nearest v₁ x₁.magnitude) (h₂ : Nearest v₂ x₂.magnitude)
    (hv : v₁ < v₂) : x₁.magnitude ≤ x₂.magnitude := by
  refine Nat.le_of_not_lt fun hlt => ?_
  have h₂₁ : x₂.magnitude < v₁ := Nat.lt_of_not_le fun h => Nat.not_le.2 hlt (h₁.ge_of_ge h)
  have h₁₂ : v₂ < x₁.magnitude := Nat.lt_of_not_le fun h => Nat.not_le.2 hlt (h₂.le_of_le h)
  have hc₁ := h₁.closer_of_le (Nat.le_of_lt h₂₁) (by omega)
  have hc₂ := h₂.closer_of_ge (Nat.le_of_lt h₁₂) (by omega)
  omega

theorem Nearest.lt_top (h₁ : Nearest v₁ r₁) (h₂ : Nearest v₂ x₂.magnitude) (hv : v₁ < v₂)
    (hx : x₂.magnitude < 2 ^ 52 * 2 ^ 2046) : r₁ < 2 ^ 52 * 2 ^ 2046 := by
  have hinf := magnitude_of_isInf isInf_inf
  generalize 2 ^ 52 * 2 ^ 2046 = top at hinf hx ⊢
  refine Nat.lt_of_not_le fun htop => ?_
  have hv₂ : v₂ < top := by
    refine Nat.lt_of_not_le fun h => ?_
    have := h₂.le_of_le (w := inf) (by omega)
    omega
  have h₂₁ : x₂.magnitude < v₁ :=
    Nat.lt_of_not_le fun h => Nat.not_le.2 hx (Nat.le_trans htop (h₁.ge_of_ge h))
  have hc₁ := h₁.closer_of_le (Nat.le_of_lt h₂₁) (by omega)
  have hc₂ := h₂.closer_of_ge (w := inf) (by omega) (by omega)
  omega

theorem magnitude_roundScaled_mono {n₁ n₂ : Bool} {m₁ m₂ Q₁ Q₂ : Nat} (hm₁ : m₁ ≠ 0)
    (hm₂ : m₂ ≠ 0) (hv : m₁ * 2 ^ Q₁ < m₂ * 2 ^ Q₂) :
    (roundScaled n₁ m₁ (Q₁ - 1074)).magnitude ≤ (roundScaled n₂ m₂ (Q₂ - 1074)).magnitude := by
  rcases (roundScaled_nearest n₂ Q₂ hm₂).2 with ⟨hinf₂, -⟩ | ⟨hfin₂, h₂⟩
  · rw [magnitude_of_isInf hinf₂]
    exact magnitude_le_top (isNaN_roundScaled n₁ Q₁ hm₁)
  · rcases (roundScaled_nearest n₁ Q₁ hm₁).2 with ⟨-, r₁, h₁, htop⟩ | ⟨-, h₁⟩
    · exact absurd (h₁.lt_top h₂ hv (magnitude_lt_top hfin₂)) (Nat.not_lt.2 htop)
    · exact h₁.magnitude_le h₂ hv

end Rounding

section Sum

variable {x y z a b c d : Double}

theorem isZero_addFinite_of_units_eq_zero (h : x.units + y.units = 0) :
    (addFinite x y).isZero = true := by
  rw [addFinite_of_units_eq_zero h]
  split <;> decide

theorem isNaN_addFinite (x y : Double) : (addFinite x y).isNaN = false := by
  by_cases h : x.units + y.units = 0
  · rw [addFinite_of_units_eq_zero h]
    split <;> decide
  · obtain ⟨m, Q, hm, -, heq⟩ := addFinite_of_units_ne_zero h
    rw [heq]
    exact isNaN_roundScaled _ Q hm

theorem units_eq_zero_iff : x.units = 0 ↔ x.isZero = true := by
  rw [isZero_iff, ← magnitude_eq_zero_iff]
  unfold units
  split <;> omega

theorem addFinite_eq_of_isZero (hx : x.isZero = true) (hy : y.isZero = true)
    (hz : z.isZero = false) : addFinite x z = addFinite y z := by
  have hzero : ∀ w : Double, w.isZero = true → w.lastPlace = -1074 ∧ ∀ q, w.scaledTo q = 0 := by
    intro w hw
    simp only [isZero, Bool.and_eq_true, decide_eq_true_eq] at hw
    exact ⟨by simp [lastPlace, hw.1], fun q => by simp [scaledTo, significand, hw.1, hw.2]⟩
  obtain ⟨hxl, hxs⟩ := hzero x hx
  obtain ⟨hyl, hys⟩ := hzero y hy
  have hzl := neg_lastPlace_le z
  have hzs : z.scaledTo (-1074) ≠ 0 := by
    have h := scaledTo_mul (x := z) (Q := 0) (by omega)
    simp at h
    rw [h, Ne, units_eq_zero_iff, hz]
    decide
  simp only [addFinite, hxl, hyl, hxs, hys, Int.zero_add,
    show min (-1074) z.lastPlace = -1074 by omega, if_neg hzs]

/-- Exact sums in strict order round in order: a zero lies between the negative and the
positive roundings, and roundings of one sign are ordered by magnitude. -/
theorem addFinite_le_of_lt (h : a.units + b.units < c.units + d.units) :
    (addFinite a b).le (addFinite c d) := by
  by_cases h₁ : a.units + b.units = 0
  · obtain ⟨m, Q, hm, -, heq⟩ := addFinite_of_units_ne_zero (x := c) (y := d) (by omega)
    rw [heq, decide_eq_false (by omega)]
    exact le_of_isZero_left (isZero_addFinite_of_units_eq_zero h₁) (isNaN_roundScaled _ Q hm)
      (signBit_roundScaled _ Q hm)
  by_cases h₂ : c.units + d.units = 0
  · obtain ⟨m, Q, hm, -, heq⟩ := addFinite_of_units_ne_zero h₁
    rw [heq, decide_eq_true (by omega)]
    exact le_of_isZero_right (isNaN_roundScaled _ Q hm) (signBit_roundScaled _ Q hm)
      (isZero_addFinite_of_units_eq_zero h₂)
  obtain ⟨m₁, Q₁, hm₁, hmQ₁, heq₁⟩ := addFinite_of_units_ne_zero h₁
  obtain ⟨m₂, Q₂, hm₂, hmQ₂, heq₂⟩ := addFinite_of_units_ne_zero h₂
  rw [heq₁, heq₂]
  rcases Int.lt_or_le (a.units + b.units) 0 with hneg₁ | hpos₁
  · rw [decide_eq_true hneg₁]
    rcases Int.lt_or_le (c.units + d.units) 0 with hneg₂ | hpos₂
    · rw [decide_eq_true hneg₂]
      exact le_of_magnitude_ge (isNaN_roundScaled _ Q₁ hm₁) (isNaN_roundScaled _ Q₂ hm₂)
        (signBit_roundScaled _ Q₁ hm₁) (signBit_roundScaled _ Q₂ hm₂)
        (magnitude_roundScaled_mono hm₂ hm₁ (by omega))
    · rw [decide_eq_false (by omega)]
      exact le_of_signBit (isNaN_roundScaled _ Q₁ hm₁) (isNaN_roundScaled _ Q₂ hm₂)
        (signBit_roundScaled _ Q₁ hm₁) (signBit_roundScaled _ Q₂ hm₂)
  · rw [decide_eq_false (by omega), decide_eq_false (by omega)]
    exact le_of_magnitude_le (isNaN_roundScaled _ Q₁ hm₁) (isNaN_roundScaled _ Q₂ hm₂)
      (signBit_roundScaled _ Q₁ hm₁) (signBit_roundScaled _ Q₂ hm₂)
      (magnitude_roundScaled_mono hm₁ hm₂ (by omega))

theorem addFinite_le_addFinite (hx : x.isFinite = true) (hy : y.isFinite = true)
    (h : x.le y) : (addFinite x z).le (addFinite y z) := by
  have hu := (le_iff_units hx hy).1 h
  rcases Int.lt_or_eq_of_le hu with hlt | heq
  · exact addFinite_le_of_lt (by omega)
  rcases eq_or_isZero_of_numEq (numEq_of_le_of_le h ((le_iff_units hy hx).2 (by omega))) with
    rfl | ⟨hx0, hy0⟩
  · exact le_refl_of_not_isNaN (isNaN_addFinite _ _)
  cases hz0 : z.isZero
  · rw [addFinite_eq_of_isZero hx0 hy0 hz0]
    exact le_refl_of_not_isNaN (isNaN_addFinite _ _)
  · have hxz : x.units + z.units = 0 := by
      rw [units_eq_zero_iff.2 hx0, units_eq_zero_iff.2 hz0]
      rfl
    have hyz : y.units + z.units = 0 := by
      rw [units_eq_zero_iff.2 hy0, units_eq_zero_iff.2 hz0]
      rfl
    exact le_of_isZero (isZero_addFinite_of_units_eq_zero hxz) (isZero_addFinite_of_units_eq_zero hyz)

theorem add_of_isFinite_right (hx : x.isNaN = false) (hz : z.isFinite = true) :
    x + z = if x.isInf then x else addFinite x z := by
  simp [add_eq, add, hx, not_isNaN_of_isFinite hz, isInf_eq_false_of_isFinite hz]

theorem add_le_add_of_isFinite (h : x.le y) (hz : z.isFinite = true) : (x + z).le (y + z) := by
  have hx := isNaN_eq_false_of_le_left h
  have hy := isNaN_eq_false_of_le_right h
  rw [add_of_isFinite_right hx hz, add_of_isFinite_right hy hz]
  cases hxi : x.isInf <;> cases hyi : y.isInf <;> simp only [Bool.false_eq_true, ↓reduceIte]
  · exact addFinite_le_addFinite (isFinite_of_not hx hxi) (isFinite_of_not hy hyi) h
  · cases hys : y.signBit
    · exact le_of_isInf hyi hys (isNaN_addFinite _ _)
    · exact absurd hyi (by rw [← eq_of_le_isInf hyi hys h, hxi]; decide)
  · cases hxs : x.signBit
    · exact absurd hxi (by rw [← eq_of_isInf_le hxi hxs h, hyi]; decide)
    · exact le_of_isInf_left hxi hxs (isNaN_addFinite _ _)
  · exact h

theorem sub_eq_add_neg_of_isNaN (hx : x.isNaN = false) (hz : z.isNaN = false) : x - z = x + -z := by
  show sub x z = add x (-z)
  simp [sub, hx, hz]

theorem sub_le_sub_of_isFinite (h : x.le y) (hz : z.isFinite = true) : (x - z).le (y - z) := by
  have hzn := not_isNaN_of_isFinite hz
  rw [sub_eq_add_neg_of_isNaN (isNaN_eq_false_of_le_left h) hzn,
    sub_eq_add_neg_of_isNaN (isNaN_eq_false_of_le_right h) hzn]
  exact add_le_add_of_isFinite h (by rw [isFinite_neg]; exact hz)

theorem sub_self_of_isFinite (hx : x.isFinite = true) : x - x = zero := by
  have hxn := not_isNaN_of_isFinite hx
  rw [sub_eq_add_neg_of_isNaN hxn hxn, add_of_isFinite_right hxn (by rw [isFinite_neg]; exact hx),
    if_neg (by rw [isInf_eq_false_of_isFinite hx]; decide),
    addFinite_of_units_eq_zero (by rw [units_neg]; omega), signBit_neg]
  cases x.signBit <;> rfl

theorem numEq_sub_of_numEq (h : x.numEq y) (hz : z.isFinite = true) : (x - z).numEq (y - z) :=
  numEq_of_le_of_le (sub_le_sub_of_isFinite (le_of_numEq h) hz)
    (sub_le_sub_of_isFinite (le_of_numEq (numEq_symm h)) hz)

theorem numEq_add_of_numEq (h : x.numEq y) (hz : z.isFinite = true) : (x + z).numEq (y + z) :=
  numEq_of_le_of_le (add_le_add_of_isFinite (le_of_numEq h) hz)
    (add_le_add_of_isFinite (le_of_numEq (numEq_symm h)) hz)

theorem zero_le_sub_of_le (h : z.le x) (hz : z.isFinite = true) : zero.le (x - z) := by
  have := sub_le_sub_of_isFinite h hz
  rwa [sub_self_of_isFinite hz] at this

end Sum

section Latest

/-- `x` is numerically the latest of `l`: no element is after it, and it is one of them up to the
sign of a zero. -/
def IsLatest (x : Double) (l : List Double) : Prop := (∀ y ∈ l, y.le x) ∧ ∃ y ∈ l, x.numEq y

variable {a a' x x' : Double} {l l' : List Double}

theorem maxNum_le {b c : Double} (ha : a.le c) (hb : b.le c) : (maxNum a b).le c := by
  rcases maxNum_eq_or a b with h | h <;> rw [h]
  · exact ha
  · exact hb

theorem isNaN_eq_false_of_numEq (h : x.numEq x') : x.isNaN = false ∧ x'.isNaN = false :=
  ⟨isNaN_eq_false_of_le_left (le_of_numEq h), isNaN_eq_false_of_le_right (le_of_numEq h)⟩

theorem isLatest_foldl_maxNum (ha : a.isNaN = false) (hl : ∀ y ∈ l, y.isNaN = false) :
    IsLatest (l.foldl maxNum a) (a :: l) := by
  obtain ⟨h₁, h₂⟩ := le_foldl_maxNum ha hl
  refine ⟨fun y hy => ?_, ?_⟩
  · rcases List.mem_cons.1 hy with rfl | hy
    · exact h₁
    · exact h₂ y hy
  · rcases foldl_maxNum_eq_or a l with h | h
    · exact ⟨a, List.mem_cons_self, by rw [h]; exact numEq_refl ha⟩
    · exact ⟨_, List.mem_cons_of_mem _ h, numEq_refl (hl _ h)⟩

theorem IsLatest.numEq (h : IsLatest x l) (h' : IsLatest x' l')
    (hl : ∀ y ∈ l, ∃ y' ∈ l', y.le y') (hl' : ∀ y' ∈ l', ∃ y ∈ l, y'.le y) : x.numEq x' := by
  obtain ⟨y, hy, hxy⟩ := h.2
  obtain ⟨y', hy', hxy'⟩ := h'.2
  obtain ⟨z', hz', hyz'⟩ := hl y hy
  obtain ⟨z, hz, hyz⟩ := hl' y' hy'
  exact numEq_of_le_of_le (le_trans (le_of_numEq hxy) (le_trans hyz' (h'.1 z' hz')))
    (le_trans (le_of_numEq hxy') (le_trans hyz (h.1 z hz)))

theorem IsLatest.numEq_of_map {ι : Type} {ss : List ι} {f g : ι → Double}
    (h : IsLatest x (a :: ss.map f)) (h' : IsLatest x' (a' :: ss.map g)) (ha : a.numEq a')
    (hfg : ∀ s ∈ ss, (f s).numEq (g s)) : x.numEq x' := by
  refine h.numEq h' (fun y hy => ?_) (fun y hy => ?_)
  · rcases List.mem_cons.1 hy with rfl | hy
    · exact ⟨a', List.mem_cons_self, le_of_numEq ha⟩
    · obtain ⟨s, hs, rfl⟩ := List.mem_map.1 hy
      exact ⟨g s, List.mem_cons_of_mem _ (List.mem_map_of_mem hs), le_of_numEq (hfg s hs)⟩
  · rcases List.mem_cons.1 hy with rfl | hy
    · exact ⟨a, List.mem_cons_self, le_of_numEq (numEq_symm ha)⟩
    · obtain ⟨s, hs, rfl⟩ := List.mem_map.1 hy
      exact ⟨f s, List.mem_cons_of_mem _ (List.mem_map_of_mem hs),
        le_of_numEq (numEq_symm (hfg s hs))⟩

theorem foldl_maxNum_map_numEq {ι : Type} {ss : List ι} {f g : ι → Double} (ha : a.numEq a')
    (hfg : ∀ s ∈ ss, (f s).numEq (g s)) :
    ((ss.map f).foldl maxNum a).numEq ((ss.map g).foldl maxNum a') := by
  have hf : ∀ y ∈ ss.map f, y.isNaN = false := by
    intro y hy
    obtain ⟨s, hs, rfl⟩ := List.mem_map.1 hy
    exact (isNaN_eq_false_of_numEq (hfg s hs)).1
  have hg : ∀ y ∈ ss.map g, y.isNaN = false := by
    intro y hy
    obtain ⟨s, hs, rfl⟩ := List.mem_map.1 hy
    exact (isNaN_eq_false_of_numEq (hfg s hs)).2
  exact (isLatest_foldl_maxNum (isNaN_eq_false_of_numEq ha).1 hf).numEq_of_map
    (isLatest_foldl_maxNum (isNaN_eq_false_of_numEq ha).2 hg) ha hfg

end Latest

end ListScheduling.Double
