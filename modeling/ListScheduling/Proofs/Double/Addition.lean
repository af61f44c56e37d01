import ListScheduling.Proofs.Double.Order

/-!
Addition of doubles.
-/
namespace ListScheduling.Double

/-- The place of the last significand bit of a finite double, counted up from the lowest
place `2 ^ -1074` of a subnormal number. -/
def place (x : Double) : Nat := (x.lastPlace + 1074).toNat

/-- The magnitude of a finite double, in units of `2 ^ -1074`. -/
def magnitude (x : Double) : Nat := x.significand * 2 ^ x.place

/-- The value of a finite double, in units of `2 ^ -1074`. -/
def units (x : Double) : Int := if x.signBit then -(x.magnitude : Int) else x.magnitude

section Fields

variable (x : Double)

theorem exponentField_lt : x.exponentField < 2 ^ 11 := Nat.mod_lt _ (by decide)

theorem fractionField_lt : x.fractionField < 2 ^ 52 := Nat.mod_lt _ (by decide)

theorem place_eq : x.place = x.exponentField - 1 := by
  unfold place lastPlace
  split <;> omega

theorem significand_lt : x.significand < 2 ^ 53 := by
  have := fractionField_lt x
  rw [significand_eq]
  split <;> omega

theorem le_significand_of_exponentField_pos (h : 0 < x.exponentField) :
    2 ^ 52 ≤ x.significand := by
  rw [significand_eq]
  split <;> omega

theorem place_le_of_isFinite (h : x.isFinite = true) : x.place ≤ 2045 := by
  rw [isFinite_iff] at h
  have := exponentField_lt x
  rw [place_eq]
  simp only [exponentField_eq] at this ⊢
  omega

theorem toNat_mod_eq : x.bits.toNat % 2 ^ 63 = x.exponentField * 2 ^ 52 + x.fractionField := by
  simp only [exponentField_eq, fractionField_eq]
  omega

end Fields

section Magnitude

variable {x : Double}

theorem magnitude_lt (x : Double) : x.magnitude < 2 ^ 53 * 2 ^ x.place :=
  Nat.mul_lt_mul_of_pos_right (significand_lt x) (Nat.two_pow_pos _)

theorem le_magnitude_of_exponentField_pos (h : 0 < x.exponentField) :
    2 ^ 52 * 2 ^ x.place ≤ x.magnitude :=
  Nat.mul_le_mul_right _ (le_significand_of_exponentField_pos x h)

theorem magnitude_lt_of_place_lt {ℓ : Nat} (h : x.place < ℓ) :
    x.magnitude < 2 ^ 52 * 2 ^ ℓ := by
  calc x.magnitude < 2 ^ 53 * 2 ^ x.place := magnitude_lt x
    _ = 2 ^ 52 * 2 ^ (x.place + 1) := by rw [Nat.pow_succ]; omega
    _ ≤ 2 ^ 52 * 2 ^ ℓ := Nat.mul_le_mul_left _ (Nat.pow_le_pow_right (by decide) h)

theorem pow_dvd_magnitude {ℓ : Nat} (h : ℓ ≤ x.place) : 2 ^ ℓ ∣ x.magnitude :=
  Nat.dvd_trans (Nat.pow_dvd_pow 2 h) (Nat.dvd_mul_left _ _)

theorem magnitude_of_exponentField_eq_zero (h : x.exponentField = 0) :
    x.magnitude = x.fractionField := by
  simp [magnitude, significand, place_eq, h]

/-- The magnitude grows strictly with the encoding below the sign bit. -/
theorem magnitude_lt_magnitude {y : Double}
    (h : x.bits.toNat % 2 ^ 63 < y.bits.toNat % 2 ^ 63) : x.magnitude < y.magnitude := by
  rw [toNat_mod_eq, toNat_mod_eq] at h
  have hfx := fractionField_lt x
  have hfy := fractionField_lt y
  by_cases he : x.exponentField = y.exponentField
  · have hs : x.significand < y.significand := by
      simp only [significand_eq]
      rw [he]
      split <;> omega
    unfold magnitude
    rw [place_eq, place_eq, he]
    exact Nat.mul_lt_mul_of_pos_right hs (Nat.two_pow_pos _)
  · have hlt : x.exponentField < y.exponentField := by
      rcases Nat.lt_or_gt_of_ne he with h' | h'
      · exact h'
      · have : y.exponentField * 2 ^ 52 + 2 ^ 52 ≤ x.exponentField * 2 ^ 52 := by
          rw [← Nat.succ_mul]; exact Nat.mul_le_mul_right _ h'
        omega
    have hy' := le_magnitude_of_exponentField_pos (x := y) (by omega)
    by_cases hx0 : x.exponentField = 0
    · rw [magnitude_of_exponentField_eq_zero hx0]
      have := Nat.one_le_two_pow (n := y.place)
      have : 2 ^ 52 ≤ 2 ^ 52 * 2 ^ y.place := Nat.le_mul_of_pos_right _ this
      omega
    · exact Nat.lt_of_lt_of_le (magnitude_lt_of_place_lt (by rw [place_eq, place_eq]; omega)) hy'

theorem magnitude_le_magnitude_iff {y : Double} :
    x.magnitude ≤ y.magnitude ↔ x.bits.toNat % 2 ^ 63 ≤ y.bits.toNat % 2 ^ 63 := by
  constructor
  · intro h
    refine Nat.le_of_not_lt fun hc => ?_
    exact Nat.not_lt.2 h (magnitude_lt_magnitude hc)
  · intro h
    rcases Nat.lt_or_eq_of_le h with h' | h'
    · exact Nat.le_of_lt (magnitude_lt_magnitude h')
    · have he : x.exponentField = y.exponentField ∧ x.fractionField = y.fractionField := by
        simp only [exponentField_eq, fractionField_eq]
        omega
      simp [magnitude, significand, place_eq, he.1, he.2]

theorem magnitude_eq_zero_iff : x.magnitude = 0 ↔ x.bits.toNat % 2 ^ 63 = 0 := by
  rw [toNat_mod_eq]
  constructor
  · intro h
    by_cases he : x.exponentField = 0
    · rw [magnitude_of_exponentField_eq_zero he] at h
      omega
    · have := le_magnitude_of_exponentField_pos (x := x) (by omega)
      have := Nat.mul_le_mul_left (2 ^ 52) (Nat.one_le_two_pow (n := x.place))
      omega
  · intro h
    have he : x.exponentField = 0 := by omega
    rw [magnitude_of_exponentField_eq_zero he]
    omega

end Magnitude

theorem le_iff_units {x y : Double} (hx : x.isFinite = true) (hy : y.isFinite = true) :
    x.le y ↔ x.units ≤ y.units := by
  have hle := magnitude_le_magnitude_iff (x := x) (y := y)
  have hge := magnitude_le_magnitude_iff (x := y) (y := x)
  have hx0 := magnitude_eq_zero_iff (x := x)
  have hy0 := magnitude_eq_zero_iff (x := y)
  have hbx := bits_toNat_lt x
  have hby := bits_toNat_lt y
  rw [le_iff, isZero_iff, isZero_iff, totalKey_eq, totalKey_eq]
  simp only [not_isNaN_of_isFinite hx, not_isNaN_of_isFinite hy, true_and, units, signBit_iff]
  split <;> split <;> omega

section Encoding

theorem encode_of_le (neg : Bool) {m ℓ : Nat} (hm : m < 2 ^ 53) (hℓ : ℓ ≤ 2045)
    (hn : ℓ = 0 ∨ 2 ^ 52 ≤ m) :
    (encode neg m (ℓ - 1074)).isFinite = true ∧ (encode neg m (ℓ - 1074)).signBit = neg ∧
      (encode neg m (ℓ - 1074)).magnitude = m * 2 ^ ℓ := by
  have hq : ¬(971 : Int) < ℓ - 1074 := by omega
  by_cases hs : m < 2 ^ 52
  · have hℓ0 : ℓ = 0 := by omega
    have hb : (encode neg m (ℓ - 1074)).bits.toNat = (if neg then 2 ^ 63 else 0) + m := by
      simp only [encode, hq, hs, ↓reduceIte, Nat.pow_eq]
      exact UInt64.toNat_ofNat_of_lt' (show _ < 2 ^ 64 by split <;> omega)
    have he : (encode neg m (ℓ - 1074)).exponentField = 0 := by
      simp only [exponentField_eq, hb]
      split <;> omega
    refine ⟨?_, ?_, ?_⟩
    · rw [isFinite_iff, hb]
      split <;> omega
    · cases neg <;> simp [signBit, hb] <;> omega
    · rw [magnitude_of_exponentField_eq_zero he]
      simp only [fractionField_eq]
      rw [hb, hℓ0, Nat.pow_zero, Nat.mul_one]
      split <;> omega
  · have hb : (encode neg m (ℓ - 1074)).bits.toNat =
        (if neg then 2 ^ 63 else 0) + (ℓ + 1) * 2 ^ 52 + (m - 2 ^ 52) := by
      simp only [encode, hq, hs, ↓reduceIte, Nat.pow_eq]
      rw [show ((ℓ : Int) - 1074 + 1075).toNat = ℓ + 1 by omega]
      exact UInt64.toNat_ofNat_of_lt' (show _ < 2 ^ 64 by split <;> omega)
    have he : (encode neg m (ℓ - 1074)).exponentField = ℓ + 1 := by
      simp only [exponentField_eq, hb]
      split <;> omega
    refine ⟨?_, ?_, ?_⟩
    · rw [isFinite_iff, hb]
      split <;> omega
    · cases neg <;> simp [signBit, hb] <;> omega
    · have hf : (encode neg m (ℓ - 1074)).fractionField = m - 2 ^ 52 := by
        simp only [fractionField_eq, hb]
        split <;> omega
      simp only [magnitude, significand_eq, place_eq, he, hf]
      rw [if_neg (by omega), Nat.add_sub_cancel, Nat.sub_add_cancel (by omega)]

theorem encode_of_lt (neg : Bool) (m : Nat) {q : Int} (hq : 971 < q) :
    (encode neg m q).isInf = true ∧ (encode neg m q).signBit = neg := by
  have hb : (encode neg m q).bits.toNat = (if neg then 2 ^ 63 else 0) + 2047 * 2 ^ 52 := by
    simp only [encode, hq, ↓reduceIte, Nat.pow_eq]
    exact UInt64.toNat_ofNat_of_lt' (show _ < 2 ^ 64 by split <;> omega)
  rw [isInf_iff, hb]
  cases neg <;> simp [signBit, hb]

end Encoding

section Grid

variable {w : Double} {low ℓ : Nat}

theorem magnitude_le_floor (hlow : 2 ^ 52 ≤ low) {v : Nat} (hv : v < (low + 1) * 2 ^ ℓ)
    (h : w.magnitude ≤ v) : w.magnitude ≤ low * 2 ^ ℓ := by
  by_cases hp : ℓ ≤ w.place
  · obtain ⟨k, hk⟩ := pow_dvd_magnitude hp
    rw [hk, Nat.mul_comm (2 ^ ℓ)] at h ⊢
    have : k < low + 1 := Nat.lt_of_mul_lt_mul_right (Nat.lt_of_le_of_lt h hv)
    exact Nat.mul_le_mul_right _ (by omega)
  · have := magnitude_lt_of_place_lt (Nat.lt_of_not_le hp)
    have := Nat.mul_le_mul_right (2 ^ ℓ) hlow
    omega

theorem ceil_le_magnitude (hlow : 2 ^ 52 ≤ low) {v : Nat} (hv : low * 2 ^ ℓ < v)
    (h : v ≤ w.magnitude) : (low + 1) * 2 ^ ℓ ≤ w.magnitude := by
  by_cases hp : ℓ ≤ w.place
  · obtain ⟨k, hk⟩ := pow_dvd_magnitude hp
    rw [hk, Nat.mul_comm (2 ^ ℓ)] at h ⊢
    have : low < k := Nat.lt_of_mul_lt_mul_right (Nat.lt_of_lt_of_le hv h)
    exact Nat.mul_le_mul_right _ this
  · have := magnitude_lt_of_place_lt (Nat.lt_of_not_le hp)
    have := Nat.mul_le_mul_right (2 ^ ℓ) hlow
    omega

theorem magnitude_lt_top (hw : w.isFinite = true) : w.magnitude < 2 ^ 52 * 2 ^ 2046 :=
  magnitude_lt_of_place_lt (by have := place_le_of_isFinite w hw; omega)

end Grid

section Rounding

variable (neg : Bool) {m : Nat} (Q : Nat)

theorem roundScaled_of_le {ℓ : Nat} (hℓ : ℓ = Q + (m.log2 + 1) - 53) (h : ℓ ≤ Q) :
    roundScaled neg m (Q - 1074) = encode neg (m * 2 ^ (Q - ℓ)) (ℓ - 1074) := by
  have hlast : max ((Q : Int) - 1074 + ((m.log2 + 1 : Nat) : Int) - 53) (-1074) = ℓ - 1074 := by
    omega
  simp only [roundScaled, hlast, Nat.pow_eq]
  rw [if_pos (by omega), show ((Q : Int) - 1074 - (ℓ - 1074)).toNat = Q - ℓ by omega]

theorem roundScaled_of_lt {ℓ : Nat} (hℓ : ℓ = Q + (m.log2 + 1) - 53) (h : Q < ℓ) :
    ∃ r, (r = m / 2 ^ (ℓ - Q) ∧ 2 * (m % 2 ^ (ℓ - Q)) ≤ 2 ^ (ℓ - Q) ∨
        r = m / 2 ^ (ℓ - Q) + 1 ∧ 2 ^ (ℓ - Q) ≤ 2 * (m % 2 ^ (ℓ - Q))) ∧
      roundScaled neg m (Q - 1074) =
        if r = 2 ^ 53 then encode neg (2 ^ 52) ((ℓ + 1 : Nat) - 1074)
        else encode neg r (ℓ - 1074) := by
  have hlast : max ((Q : Int) - 1074 + ((m.log2 + 1 : Nat) : Int) - 53) (-1074) = ℓ - 1074 := by
    omega
  simp only [roundScaled, hlast, Nat.pow_eq]
  rw [if_neg (by omega), show ((ℓ : Int) - 1074 - (Q - 1074)).toNat = ℓ - Q by omega,
    show (ℓ : Int) - 1074 + 1 = ((ℓ + 1 : Nat) : Int) - 1074 by omega]
  refine ⟨_, ?_, rfl⟩
  split
  · exact .inr ⟨rfl, by omega⟩
  · exact .inl ⟨rfl, by omega⟩

end Rounding

/-- `r` rounds `v`: no finite double lies strictly between the two magnitudes. -/
def IsRounding (v r : Nat) : Prop :=
  ∀ w : Double, w.isFinite = true →
    (w.magnitude ≤ v → w.magnitude ≤ r) ∧ (v ≤ w.magnitude → r ≤ w.magnitude)

/-- `r` is `v`, or the nearer of the two points around `v` of a grid of step `2 ^ ℓ` whose
points from `low · 2 ^ ℓ` on have normal significands. -/
def Nearest (v r : Nat) : Prop :=
  r = v ∨ ∃ low ℓ, 2 ^ 52 ≤ low ∧ low * 2 ^ ℓ < v ∧ v < low * 2 ^ ℓ + 2 ^ ℓ ∧
    (r = low * 2 ^ ℓ ∧ 2 * v ≤ 2 * (low * 2 ^ ℓ) + 2 ^ ℓ ∨
      r = low * 2 ^ ℓ + 2 ^ ℓ ∧ 2 * (low * 2 ^ ℓ) + 2 ^ ℓ ≤ 2 * v)

section Nearest

variable {v r : Nat} {w : Double}

theorem Nearest.le_of_le (h : Nearest v r) (hw : w.magnitude ≤ v) : w.magnitude ≤ r := by
  rcases h with rfl | ⟨low, ℓ, hlow, h₁, h₂, ⟨rfl, -⟩ | ⟨rfl, -⟩⟩
  · exact hw
  · exact magnitude_le_floor hlow (by rwa [Nat.add_mul, Nat.one_mul]) hw
  · omega

theorem Nearest.ge_of_ge (h : Nearest v r) (hw : v ≤ w.magnitude) : r ≤ w.magnitude := by
  rcases h with rfl | ⟨low, ℓ, hlow, h₁, h₂, ⟨rfl, -⟩ | ⟨rfl, -⟩⟩
  · exact hw
  · omega
  · have := ceil_le_magnitude hlow h₁ hw
    rwa [Nat.add_mul, Nat.one_mul] at this

theorem Nearest.closer_of_le (h : Nearest v r) (hw : w.magnitude ≤ v) (hv : v ≤ r) :
    r + w.magnitude ≤ 2 * v := by
  rcases h with rfl | ⟨low, ℓ, hlow, h₁, h₂, ⟨rfl, -⟩ | ⟨rfl, hc⟩⟩
  · omega
  · omega
  · have := magnitude_le_floor hlow (by rwa [Nat.add_mul, Nat.one_mul]) hw
    omega

theorem Nearest.closer_of_ge (h : Nearest v r) (hw : v ≤ w.magnitude) (hr : r ≤ v) :
    2 * v ≤ r + w.magnitude := by
  rcases h with rfl | ⟨low, ℓ, hlow, h₁, h₂, ⟨rfl, hc⟩ | ⟨rfl, -⟩⟩
  · omega
  · have := ceil_le_magnitude hlow h₁ hw
    rw [Nat.add_mul, Nat.one_mul] at this
    omega
  · omega

theorem Nearest.isRounding (h : Nearest v r) : IsRounding v r :=
  fun _ _ => ⟨h.le_of_le, h.ge_of_ge⟩

end Nearest

theorem pow_le_div_of_log2 {m d : Nat} (hm : m ≠ 0) (h : m.log2 = 52 + d) :
    2 ^ 52 ≤ m / 2 ^ d ∧ m / 2 ^ d < 2 ^ 53 := by
  have hlo := Nat.log2_self_le hm
  have hhi := @Nat.lt_log2_self m
  rw [h] at hlo hhi
  constructor
  · rw [Nat.le_div_iff_mul_le (Nat.two_pow_pos d), ← Nat.pow_add]
    exact hlo
  · rw [Nat.div_lt_iff_lt_mul (Nat.two_pow_pos d), ← Nat.pow_add]
    exact Nat.lt_of_lt_of_le hhi (Nat.pow_le_pow_right (by decide) (by omega))

/-- Rounding `m · 2 ^ Q` encodes a significand and a place whose value is nearest to it. -/
theorem roundScaled_eq_encode (neg : Bool) {m : Nat} (Q : Nat) (hm : m ≠ 0) :
    ∃ M ℓ : Nat, M < 2 ^ 53 ∧ (ℓ = 0 ∨ 2 ^ 52 ≤ M) ∧ Nearest (m * 2 ^ Q) (M * 2 ^ ℓ) ∧
      roundScaled neg m (Q - 1074) = encode neg M (ℓ - 1074) := by
  have hlo := Nat.log2_self_le hm
  have hhi := @Nat.lt_log2_self m
  obtain ⟨ℓ, hℓ⟩ : ∃ ℓ, ℓ = Q + (m.log2 + 1) - 53 := ⟨_, rfl⟩
  by_cases hex : ℓ ≤ Q
  · refine ⟨m * 2 ^ (Q - ℓ), ℓ, ?_, ?_, ?_, roundScaled_of_le neg Q hℓ hex⟩
    · calc m * 2 ^ (Q - ℓ) < 2 ^ (m.log2 + 1) * 2 ^ (Q - ℓ) :=
            Nat.mul_lt_mul_of_pos_right hhi (Nat.two_pow_pos _)
        _ = 2 ^ (m.log2 + 1 + (Q - ℓ)) := (Nat.pow_add ..).symm
        _ ≤ 2 ^ 53 := Nat.pow_le_pow_right (by decide) (by omega)
    · by_cases h0 : ℓ = 0
      · exact .inl h0
      · refine .inr ?_
        calc 2 ^ 52 = 2 ^ (m.log2 + (Q - ℓ)) := by congr 1; omega
          _ = 2 ^ m.log2 * 2 ^ (Q - ℓ) := Nat.pow_add ..
          _ ≤ m * 2 ^ (Q - ℓ) := Nat.mul_le_mul_right _ hlo
    · left
      rw [Nat.mul_assoc, ← Nat.pow_add, Nat.sub_add_cancel hex]
  · have hd : m.log2 = 52 + (ℓ - Q) := by omega
    obtain ⟨hlow, hhigh⟩ := pow_le_div_of_log2 hm hd
    obtain ⟨r, hr, heq⟩ := roundScaled_of_lt neg Q hℓ (Nat.lt_of_not_le hex)
    have hgrid : 2 ^ ℓ = 2 ^ (ℓ - Q) * 2 ^ Q := by
      rw [← Nat.pow_add, Nat.sub_add_cancel (by omega)]
    have hsplit : m * 2 ^ Q = m / 2 ^ (ℓ - Q) * 2 ^ ℓ + m % 2 ^ (ℓ - Q) * 2 ^ Q := by
      calc m * 2 ^ Q = (2 ^ (ℓ - Q) * (m / 2 ^ (ℓ - Q)) + m % 2 ^ (ℓ - Q)) * 2 ^ Q := by
            rw [Nat.div_add_mod]
        _ = _ := by
          rw [hgrid, Nat.add_mul, ← Nat.mul_assoc, Nat.mul_comm (m / 2 ^ (ℓ - Q))]
    have hrest : m % 2 ^ (ℓ - Q) * 2 ^ Q < 2 ^ ℓ := by
      rw [hgrid]
      exact Nat.mul_lt_mul_of_pos_right (Nat.mod_lt _ (Nat.two_pow_pos _)) (Nat.two_pow_pos _)
    rcases hr with ⟨rfl, hc⟩ | ⟨rfl, hc⟩
    · rw [if_neg (by omega)] at heq
      refine ⟨_, ℓ, hhigh, .inr hlow, ?_, heq⟩
      by_cases h0 : m % 2 ^ (ℓ - Q) = 0
      · left
        rw [hsplit, h0, Nat.zero_mul, Nat.add_zero]
      · have hpos : 0 < m % 2 ^ (ℓ - Q) * 2 ^ Q :=
          Nat.mul_pos (Nat.pos_of_ne_zero h0) (Nat.two_pow_pos _)
        have hhalf : 2 * (m % 2 ^ (ℓ - Q)) * 2 ^ Q ≤ 2 ^ (ℓ - Q) * 2 ^ Q :=
          Nat.mul_le_mul_right _ hc
        rw [Nat.mul_assoc, ← hgrid] at hhalf
        exact .inr ⟨_, ℓ, hlow, by omega, by omega, .inl ⟨rfl, by omega⟩⟩
    · have hne : m % 2 ^ (ℓ - Q) ≠ 0 := by
        have := Nat.two_pow_pos (ℓ - Q)
        omega
      have hpos : 0 < m % 2 ^ (ℓ - Q) * 2 ^ Q :=
        Nat.mul_pos (Nat.pos_of_ne_zero hne) (Nat.two_pow_pos _)
      have hhalf : 2 ^ (ℓ - Q) * 2 ^ Q ≤ 2 * (m % 2 ^ (ℓ - Q)) * 2 ^ Q :=
        Nat.mul_le_mul_right _ hc
      rw [Nat.mul_assoc, ← hgrid] at hhalf
      have hup : Nearest (m * 2 ^ Q) ((m / 2 ^ (ℓ - Q) + 1) * 2 ^ ℓ) := by
        rw [Nat.add_mul, Nat.one_mul]
        exact .inr ⟨_, ℓ, hlow, by omega, by omega, .inr ⟨rfl, by omega⟩⟩
      split at heq
      · rename_i hcarry
        have hcarry' : 2 ^ 52 * 2 ^ (ℓ + 1) = (m / 2 ^ (ℓ - Q) + 1) * 2 ^ ℓ := by
          rw [hcarry, ← Nat.pow_add, ← Nat.pow_add, Nat.add_comm ℓ 1, ← Nat.add_assoc]
        exact ⟨2 ^ 52, ℓ + 1, by decide, .inr (Nat.le_refl _), hcarry' ▸ hup, heq⟩
      · exact ⟨_, ℓ, by omega, .inr (by omega), hup, heq⟩

theorem isNaN_eq_false_of_isInf {x : Double} (h : x.isInf = true) : x.isNaN = false := by
  rw [isInf_iff] at h
  rw [Bool.eq_false_iff, ne_eq, isNaN_iff]
  omega

theorem roundScaled_nearest (neg : Bool) {m : Nat} (Q : Nat) (hm : m ≠ 0) :
    (roundScaled neg m (Q - 1074)).signBit = neg ∧
      ((roundScaled neg m (Q - 1074)).isInf = true ∧
          (∃ r, Nearest (m * 2 ^ Q) r ∧ 2 ^ 52 * 2 ^ 2046 ≤ r) ∨
        (roundScaled neg m (Q - 1074)).isFinite = true ∧
          Nearest (m * 2 ^ Q) (roundScaled neg m (Q - 1074)).magnitude) := by
  obtain ⟨M, ℓ, hM, hn, hr, heq⟩ := roundScaled_eq_encode neg Q hm
  rw [heq]
  by_cases hℓ : ℓ ≤ 2045
  · obtain ⟨hfin, hsign, hmag⟩ := encode_of_le neg hM hℓ hn
    exact ⟨hsign, .inr ⟨hfin, hmag ▸ hr⟩⟩
  · obtain ⟨hinf, hsign⟩ := encode_of_lt neg M (q := ℓ - 1074) (by omega)
    have h52 : 2 ^ 52 ≤ M := hn.resolve_left (by omega)
    exact ⟨hsign, .inl ⟨hinf, _, hr,
      Nat.mul_le_mul h52 (Nat.pow_le_pow_right (by decide) (by omega))⟩⟩

theorem roundScaled_spec (neg : Bool) {m : Nat} (Q : Nat) (hm : m ≠ 0) :
    (roundScaled neg m (Q - 1074)).signBit = neg ∧
      ((roundScaled neg m (Q - 1074)).isInf = true ∧
          (∃ r, IsRounding (m * 2 ^ Q) r ∧ 2 ^ 52 * 2 ^ 2046 ≤ r) ∨
        (roundScaled neg m (Q - 1074)).isFinite = true ∧
          IsRounding (m * 2 ^ Q) (roundScaled neg m (Q - 1074)).magnitude) := by
  obtain ⟨hsign, ⟨hinf, r, hr, htop⟩ | ⟨hfin, hr⟩⟩ := roundScaled_nearest neg Q hm
  · exact ⟨hsign, .inl ⟨hinf, r, hr.isRounding, htop⟩⟩
  · exact ⟨hsign, .inr ⟨hfin, hr.isRounding⟩⟩

section RoundScaled

variable (neg : Bool) {m : Nat} (Q : Nat) (hm : m ≠ 0) {w : Double} (hw : w.isFinite = true)
include hm

theorem signBit_roundScaled : (roundScaled neg m (Q - 1074)).signBit = neg :=
  (roundScaled_spec neg Q hm).1

theorem isNaN_roundScaled : (roundScaled neg m (Q - 1074)).isNaN = false := by
  rcases (roundScaled_spec neg Q hm).2 with ⟨hinf, -⟩ | ⟨hfin, -⟩
  · exact isNaN_eq_false_of_isInf hinf
  · exact not_isNaN_of_isFinite hfin

include hw in
include hw in
theorem magnitude_roundScaled_le (h : m * 2 ^ Q ≤ w.magnitude) :
    (roundScaled neg m (Q - 1074)).isFinite = true ∧
      (roundScaled neg m (Q - 1074)).magnitude ≤ w.magnitude := by
  rcases (roundScaled_spec neg Q hm).2 with ⟨-, r, hr, htop⟩ | ⟨hfin, hr⟩
  · have hle := (hr w hw).2 h
    have := magnitude_lt_top hw
    generalize 2 ^ 52 * 2 ^ 2046 = top at *
    omega
  · exact ⟨hfin, (hr w hw).2 h⟩

end RoundScaled

section Sum

variable {x y : Double}

theorem neg_lastPlace_le (x : Double) : -1074 ≤ x.lastPlace := by
  unfold lastPlace
  split <;> omega

theorem scaledTo_mul {Q : Nat} (h : (Q : Int) - 1074 ≤ x.lastPlace) :
    x.scaledTo (Q - 1074) * 2 ^ Q = x.units := by
  have hp : x.place = (x.lastPlace - (Q - 1074)).toNat + Q := by
    have := neg_lastPlace_le x
    unfold place
    omega
  simp only [scaledTo, units, magnitude, hp, intPow_eq, Nat.pow_add]
  split <;> push_cast <;> simp only [Int.neg_mul, Int.mul_assoc]

theorem addFinite_sum (x y : Double) :
    ∃ Q : Nat, min x.lastPlace y.lastPlace = Q - 1074 ∧
      (x.scaledTo (Q - 1074) + y.scaledTo (Q - 1074)) * 2 ^ Q = x.units + y.units := by
  have hx := neg_lastPlace_le x
  have hy := neg_lastPlace_le y
  refine ⟨(min x.lastPlace y.lastPlace + 1074).toNat, by omega, ?_⟩
  rw [Int.add_mul, scaledTo_mul (by omega), scaledTo_mul (by omega)]

theorem addFinite_of_units_eq_zero (h : x.units + y.units = 0) :
    addFinite x y = if x.signBit && y.signBit then negZero else zero := by
  obtain ⟨Q, hmin, hsum⟩ := addFinite_sum x y
  simp only [addFinite, hmin]
  generalize x.scaledTo (Q - 1074) + y.scaledTo (Q - 1074) = S at hsum ⊢
  have hP : (0 : Int) < 2 ^ Q := Int.pow_pos (by decide)
  rw [h] at hsum
  rcases Int.mul_eq_zero.mp hsum with hS | hS
  · rw [if_pos hS]
  · omega

/-- A sum whose exact value is not zero is that value rounded, with its sign. -/
theorem addFinite_of_units_ne_zero (h : x.units + y.units ≠ 0) :
    ∃ m Q : Nat, m ≠ 0 ∧ m * 2 ^ Q = (x.units + y.units).natAbs ∧
      addFinite x y = roundScaled (decide (x.units + y.units < 0)) m (Q - 1074) := by
  obtain ⟨Q, hmin, hsum⟩ := addFinite_sum x y
  simp only [addFinite, hmin]
  generalize x.scaledTo (Q - 1074) + y.scaledTo (Q - 1074) = S at hsum ⊢
  have hP : (0 : Int) < 2 ^ Q := Int.pow_pos (by decide)
  have hS : S ≠ 0 := by
    rintro rfl
    rw [Int.zero_mul] at hsum
    exact h hsum.symm
  have hneg : S < 0 ↔ x.units + y.units < 0 := by
    rw [← hsum]
    constructor
    · intro hs
      exact Int.mul_neg_of_neg_of_pos hs hP
    · intro hs
      refine Int.lt_of_not_ge fun h0 => ?_
      have := Int.mul_nonneg h0 (Int.le_of_lt hP)
      omega
  refine ⟨S.natAbs, Q, by omega, ?_, ?_⟩
  · rw [← hsum, Int.natAbs_mul, Int.natAbs_pow]
    rfl
  · rw [if_neg hS, decide_eq_decide.mpr hneg]

end Sum

section Classes

variable {x y : Double}

theorem isFinite_of_not (hn : x.isNaN = false) (hi : x.isInf = false) : x.isFinite = true := by
  rw [Bool.eq_false_iff, ne_eq, isNaN_iff] at hn
  rw [Bool.eq_false_iff, ne_eq, isInf_iff] at hi
  rw [isFinite_iff]
  omega

theorem eq_of_isInf (hx : x.isInf = true) (hy : y.isInf = true) (h : x.signBit = y.signBit) :
    x = y := by
  have := bits_toNat_lt x
  have := bits_toNat_lt y
  rw [isInf_iff] at hx hy
  refine eq_of_toNat_eq ?_
  cases hs : y.signBit
  · rw [hs, ← Bool.not_eq_true, signBit_iff] at h
    rw [← Bool.not_eq_true, signBit_iff] at hs
    omega
  · rw [hs, signBit_iff] at h
    rw [signBit_iff] at hs
    omega

theorem le_of_isInf (hy : y.isInf = true) (hs : y.signBit = false) (hx : x.isNaN = false) :
    x.le y := by
  have := bits_toNat_lt x
  rw [isInf_iff] at hy
  rw [← Bool.not_eq_true, signBit_iff] at hs
  rw [Bool.eq_false_iff, ne_eq, isNaN_iff] at hx
  rw [le_iff, totalKey_eq, totalKey_eq]
  refine ⟨by rw [Bool.eq_false_iff, ne_eq, isNaN_iff]; omega, isNaN_eq_false_of_isInf ?_, .inr ?_⟩
  · rw [isInf_iff]
    exact hy
  · rw [if_neg hs]
    split <;> omega

theorem isInf_eq_false_of_isFinite (h : x.isFinite = true) : x.isInf = false := by
  rw [isFinite_iff] at h
  rw [Bool.eq_false_iff, ne_eq, isInf_iff]
  omega

theorem units_of_signBit_true (h : x.signBit = true) : x.units = -(x.magnitude : Int) := by
  simp only [units, h, ↓reduceIte]

theorem units_of_signBit_false (h : x.signBit = false) : x.units = x.magnitude := by
  simp only [units, h, Bool.false_eq_true, ↓reduceIte]

end Classes

theorem add_eq (x y : Double) : x + y = add x y := rfl

theorem addFinite_comm (x y : Double) : addFinite x y = addFinite y x := by
  simp only [addFinite]
  rw [Int.min_comm, Int.add_comm (x.scaledTo _), Bool.and_comm]

theorem add_comm_of_isNaN {x y : Double} (h : x.isNaN = false ∨ y.isNaN = false) :
    x + y = y + x := by
  rw [add_eq, add_eq]
  unfold add
  cases hx : x.isNaN <;> cases hy : y.isNaN
  · cases hxi : x.isInf <;> cases hyi : y.isInf
    · simp only [Bool.false_eq_true, ↓reduceIte]
      exact addFinite_comm x y
    · simp only [Bool.false_eq_true, ↓reduceIte, Bool.false_and]
    · simp only [Bool.false_eq_true, ↓reduceIte, Bool.false_and]
    · by_cases hs : x.signBit = y.signBit
      · simp only [Bool.false_eq_true, ↓reduceIte, hs, bne_self_eq_false, Bool.and_false]
        exact eq_of_isInf hxi hyi hs
      · simp only [Bool.false_eq_true, ↓reduceIte, Bool.true_and, bne_iff_ne, ne_eq, hs,
          not_false_eq_true, Ne.symm hs]
  · simp only [Bool.false_eq_true, ↓reduceIte]
  · simp only [Bool.false_eq_true, ↓reduceIte]
  · simp [hx, hy] at h

theorem isFinite_zero : zero.isFinite = true := by decide

theorem isFinite_negZero : negZero.isFinite = true := by decide

theorem units_zero : zero.units = 0 := by decide

theorem units_negZero : negZero.units = 0 := by decide

/-- Adding a value that is not negative to a finite double gives no less. -/
theorem le_addFinite {e x : Double} (hx : x.isFinite = true) (he0 : 0 ≤ e.units) : x.le (addFinite e x) := by
  by_cases h : e.units + x.units = 0
  · rw [addFinite_of_units_eq_zero h]
    split
    · rw [le_iff_units hx isFinite_negZero, units_negZero]
      omega
    · rw [le_iff_units hx isFinite_zero, units_zero]
      omega
  obtain ⟨m, Q, hm, hmQ, heq⟩ := addFinite_of_units_ne_zero h
  rw [heq]
  rcases Int.lt_or_gt_of_ne h with hneg | hpos
  · -- a negative sum: `x` is negative and at least as large in magnitude, so the rounding,
    -- which is finite, stays between the two
    rw [decide_eq_true hneg]
    have hxs : x.signBit = true := by
      cases hs : x.signBit
      · rw [units_of_signBit_false hs] at hneg
        omega
      · rfl
    rw [units_of_signBit_true hxs] at hmQ hneg
    obtain ⟨hfin, hle⟩ := magnitude_roundScaled_le true Q hm hx (by omega)
    rw [le_iff_units hx hfin, units_of_signBit_true hxs,
      units_of_signBit_true (signBit_roundScaled true Q hm)]
    omega
  · rw [decide_eq_false (by omega)]
    have hsign := signBit_roundScaled false Q hm
    rcases (roundScaled_spec false Q hm).2 with ⟨hinf, -⟩ | ⟨hfin, hr⟩
    · exact le_of_isInf hinf hsign (not_isNaN_of_isFinite hx)
    · rw [le_iff_units hx hfin, units_of_signBit_false hsign]
      cases hxs : x.signBit
      · rw [units_of_signBit_false hxs] at hmQ hpos ⊢
        have := (hr x hx).1 (by omega)
        omega
      · rw [units_of_signBit_true hxs]
        omega

theorem le_add_of_nonneg {e x : Double} (he : e.isFinite = true) (he0 : 0 ≤ e.units)
    (hx : x.isNaN = false) : x.le (e + x) := by
  rw [add_eq, add, if_neg (by simp [not_isNaN_of_isFinite he]), if_neg (by simp [hx]),
    if_neg (by simp [isInf_eq_false_of_isFinite he])]
  cases hxi : x.isInf
  · rw [if_neg (by simp)]
    exact le_addFinite (isFinite_of_not hx hxi) he0
  · rw [if_pos rfl]
    exact le_refl_of_not_isNaN hx

end ListScheduling.Double
