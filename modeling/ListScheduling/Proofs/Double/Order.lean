import Mathlib
import ListScheduling.Double.Order

/-!
The numeric order of doubles, read off the encoding.
-/
namespace ListScheduling.Double

theorem bits_toNat_lt (x : Double) : x.bits.toNat < 2 ^ 64 := x.bits.toNat_lt

/-! The fields of the encoding, with their powers of two written as powers. -/

theorem signBit_eq (x : Double) : x.signBit = decide (2 ^ 63 ≤ x.bits.toNat) := rfl

theorem exponentField_eq (x : Double) : x.exponentField = x.bits.toNat / 2 ^ 52 % 2 ^ 11 := rfl

theorem fractionField_eq (x : Double) : x.fractionField = x.bits.toNat % 2 ^ 52 := rfl

theorem significand_eq (x : Double) :
    x.significand = if x.exponentField = 0 then x.fractionField else x.fractionField + 2 ^ 52 :=
  rfl

theorem intPow_eq (m : Int) (n : Nat) : m.pow n = m ^ n := rfl

theorem eq_of_toNat_eq {x y : Double} (h : x.bits.toNat = y.bits.toNat) : x = y := by
  cases x
  cases y
  simpa [UInt64.toNat_inj] using h

theorem signBit_iff (x : Double) : x.signBit = true ↔ 2 ^ 63 ≤ x.bits.toNat := by
  simp only [signBit, decide_eq_true_eq, Nat.pow_eq]

theorem isNaN_iff (x : Double) :
    x.isNaN = true ↔ x.bits.toNat / 2 ^ 52 % 2 ^ 11 = 2047 ∧ x.bits.toNat % 2 ^ 52 ≠ 0 := by
  simp only [isNaN, Bool.and_eq_true, decide_eq_true_eq, bne_iff_ne, ne_eq]
  rfl

theorem isInf_iff (x : Double) :
    x.isInf = true ↔ x.bits.toNat / 2 ^ 52 % 2 ^ 11 = 2047 ∧ x.bits.toNat % 2 ^ 52 = 0 := by
  simp only [isInf, Bool.and_eq_true, decide_eq_true_eq]
  rfl

theorem isFinite_iff (x : Double) : x.isFinite = true ↔ x.bits.toNat / 2 ^ 52 % 2 ^ 11 ≠ 2047 := by
  simp only [isFinite, bne_iff_ne, ne_eq]
  rfl

theorem isZero_iff (x : Double) : x.isZero = true ↔ x.bits.toNat % 2 ^ 63 = 0 := by
  have := bits_toNat_lt x
  simp only [isZero, Bool.and_eq_true, decide_eq_true_eq]
  simp only [exponentField_eq, fractionField_eq]
  omega

theorem totalKey_eq (x : Double) :
    x.totalKey =
      if 2 ^ 63 ≤ x.bits.toNat then 2 ^ 64 - 1 - x.bits.toNat else x.bits.toNat + 2 ^ 63 := by
  simp only [totalKey, signBit, decide_eq_true_eq, Nat.pow_eq]

theorem isZero_iff_totalKey (x : Double) :
    x.isZero = true ↔ x.totalKey = 2 ^ 63 - 1 ∨ x.totalKey = 2 ^ 63 := by
  have := bits_toNat_lt x
  rw [isZero_iff, totalKey_eq]
  split <;> omega

theorem not_isNaN_of_isFinite {x : Double} (h : x.isFinite = true) : x.isNaN = false := by
  rw [isFinite_iff] at h
  rw [Bool.eq_false_iff, ne_eq, isNaN_iff]
  omega

theorem lt_iff (x y : Double) :
    x.lt y = true ↔ x.isNaN = false ∧ y.isNaN = false ∧
      ¬(x.isZero = true ∧ y.isZero = true) ∧ x.totalKey < y.totalKey := by
  simp only [lt, Bool.and_eq_true, Bool.not_eq_true', decide_eq_true_eq, and_assoc]
  cases x.isZero <;> cases y.isZero <;> simp

theorem le_iff (x y : Double) :
    x.le y = true ↔ x.isNaN = false ∧ y.isNaN = false ∧
      ((x.isZero = true ∧ y.isZero = true) ∨ x.totalKey ≤ y.totalKey) := by
  simp only [le, Bool.and_eq_true, Bool.not_eq_true', Bool.or_eq_true, decide_eq_true_eq,
    and_assoc]

theorem isNaN_eq_false_of_le_left {x y : Double} (h : x.le y) : x.isNaN = false :=
  ((le_iff x y).1 h).1

theorem isNaN_eq_false_of_le_right {x y : Double} (h : x.le y) : y.isNaN = false :=
  ((le_iff x y).1 h).2.1

theorem le_refl_of_not_isNaN {x : Double} (h : x.isNaN = false) : x.le x :=
  (le_iff x x).2 ⟨h, h, .inr (Nat.le_refl _)⟩

theorem le_trans {x y z : Double} (hxy : x.le y) (hyz : y.le z) : x.le z := by
  rw [le_iff] at hxy hyz ⊢
  obtain ⟨hx, -, hxy⟩ := hxy
  obtain ⟨-, hz, hyz⟩ := hyz
  refine ⟨hx, hz, ?_⟩
  simp only [isZero_iff_totalKey] at hxy hyz ⊢
  omega

theorem le_of_not_lt {x y : Double} (hx : x.isNaN = false) (hy : y.isNaN = false)
    (h : y.lt x = false) : x.le y := by
  rw [← Bool.not_eq_true, lt_iff] at h
  rw [le_iff]
  refine ⟨hx, hy, ?_⟩
  simp only [hx, hy, true_and, not_and, Nat.not_lt] at h
  by_cases hz : y.isZero = true ∧ x.isZero = true
  · exact .inl ⟨hz.2, hz.1⟩
  · exact .inr (h fun hy' hx' => hz ⟨hy', hx'⟩)

theorem maxNum_isNaN_eq_false_left {x : Double} (y : Double) (hx : x.isNaN = false) :
    (maxNum x y).isNaN = false := by
  unfold maxNum
  cases hy : y.isNaN
  · cases hyx : y.lt x <;> simp [hx, hy, hyx]
  · simpa using hx

theorem le_maxNum_left {x : Double} (y : Double) (hx : x.isNaN = false) : x.le (maxNum x y) := by
  unfold maxNum
  cases hy : y.isNaN
  · cases hyx : y.lt x
    · simpa [hx, hyx] using le_of_not_lt hx hy hyx
    · simpa [hx, hyx] using le_refl_of_not_isNaN hx
  · simpa using le_refl_of_not_isNaN hx

theorem le_maxNum_right (x : Double) {y : Double} (hy : y.isNaN = false) : y.le (maxNum x y) := by
  unfold maxNum
  cases hx : x.isNaN
  · cases hyx : y.lt x
    · simpa [hy, hyx] using le_refl_of_not_isNaN hy
    · simp only [hy, Bool.false_eq_true, ↓reduceIte]
      rw [lt_iff] at hyx
      exact (le_iff y x).2 ⟨hy, hx, .inr (Nat.le_of_lt hyx.2.2.2)⟩
  · simpa [hy] using le_refl_of_not_isNaN hy

theorem maxNum_self (x : Double) : maxNum x x = x := by
  unfold maxNum
  simp only [lt, Nat.lt_irrefl, decide_false, Bool.and_false, Bool.false_eq_true, ↓reduceIte,
    ite_self]

theorem maxNum_maxNum_self (x t : Double) : maxNum x (maxNum x t) = maxNum x t := by
  cases ht : t.isNaN
  · cases hx : x.isNaN
    · cases htx : t.lt x <;> simp [maxNum, ht, hx, htx]
    · simp [maxNum, ht, hx]
  · simp only [maxNum, ht, ↓reduceIte]
    exact maxNum_self x

theorem maxNum_eq_or (x y : Double) : maxNum x y = x ∨ maxNum x y = y := by
  unfold maxNum
  split
  · exact .inl rfl
  split
  · exact .inr rfl
  split
  · exact .inl rfl
  · exact .inr rfl

theorem minNum_eq_or (x y : Double) : minNum x y = x ∨ minNum x y = y := by
  unfold minNum
  split
  · exact .inl rfl
  split
  · exact .inr rfl
  split
  · exact .inl rfl
  · exact .inr rfl

theorem minNum_isNaN_eq_false_left {x : Double} (y : Double) (hx : x.isNaN = false) :
    (minNum x y).isNaN = false := by
  rcases minNum_eq_or x y with h | h <;> rw [h]
  · exact hx
  · unfold minNum at h
    split at h
    · rw [← h]
      exact hx
    · rename_i hy
      simpa using hy

theorem minNum_le_left {x : Double} (y : Double) (hx : x.isNaN = false) : (minNum x y).le x := by
  unfold minNum
  cases hy : y.isNaN
  · cases hxy : x.lt y
    · simpa [hx, hxy] using le_of_not_lt hy hx hxy
    · simpa [hx, hxy] using le_refl_of_not_isNaN hx
  · simpa using le_refl_of_not_isNaN hx

theorem minNum_le_right (x : Double) {y : Double} (hy : y.isNaN = false) : (minNum x y).le y := by
  unfold minNum
  cases hx : x.isNaN
  · cases hxy : x.lt y
    · simpa [hy, hxy] using le_refl_of_not_isNaN hy
    · simp only [hy, Bool.false_eq_true, ↓reduceIte]
      rw [lt_iff] at hxy
      exact (le_iff x y).2 ⟨hx, hy, .inr (Nat.le_of_lt hxy.2.2.2)⟩
  · simpa [hy] using le_refl_of_not_isNaN hy

section Folds

variable {a : Double} {l : List Double}

theorem foldl_maxNum_eq_or (a : Double) (l : List Double) :
    l.foldl maxNum a = a ∨ l.foldl maxNum a ∈ l := by
  induction l generalizing a with
  | nil => exact .inl rfl
  | cons x l ih =>
    rw [List.foldl_cons]
    rcases ih (maxNum a x) with h | h
    · rw [h]
      rcases maxNum_eq_or a x with h' | h' <;> rw [h']
      · exact .inl rfl
      · exact .inr List.mem_cons_self
    · exact .inr (List.mem_cons_of_mem _ h)

theorem foldl_minNum_eq_or (a : Double) (l : List Double) :
    l.foldl minNum a = a ∨ l.foldl minNum a ∈ l := by
  induction l generalizing a with
  | nil => exact .inl rfl
  | cons x l ih =>
    rw [List.foldl_cons]
    rcases ih (minNum a x) with h | h
    · rw [h]
      rcases minNum_eq_or a x with h' | h' <;> rw [h']
      · exact .inl rfl
      · exact .inr List.mem_cons_self
    · exact .inr (List.mem_cons_of_mem _ h)

theorem le_foldl_maxNum (ha : a.isNaN = false) (hl : ∀ x ∈ l, x.isNaN = false) :
    a.le (l.foldl maxNum a) ∧ ∀ x ∈ l, x.le (l.foldl maxNum a) := by
  induction l generalizing a with
  | nil => exact ⟨le_refl_of_not_isNaN ha, nofun⟩
  | cons x l ih =>
    have hx := hl x List.mem_cons_self
    obtain ⟨h₁, h₂⟩ := ih (maxNum_isNaN_eq_false_left x ha) fun y hy => hl y (List.mem_cons_of_mem _ hy)
    refine ⟨le_trans (le_maxNum_left x ha) h₁, fun y hy => ?_⟩
    rcases List.mem_cons.1 hy with rfl | hy
    · exact le_trans (le_maxNum_right a hx) h₁
    · exact h₂ y hy

theorem foldl_maxNum_le {b : Double} (ha : a.le b) (hl : ∀ x ∈ l, x.le b) :
    (l.foldl maxNum a).le b := by
  rcases foldl_maxNum_eq_or a l with h | h
  · rw [h]
    exact ha
  · exact hl _ h

theorem foldl_minNum_le (ha : a.isNaN = false) (hl : ∀ x ∈ l, x.isNaN = false) :
    (l.foldl minNum a).le a ∧ ∀ x ∈ l, (l.foldl minNum a).le x := by
  induction l generalizing a with
  | nil => exact ⟨le_refl_of_not_isNaN ha, nofun⟩
  | cons x l ih =>
    have hx := hl x List.mem_cons_self
    obtain ⟨h₁, h₂⟩ := ih (minNum_isNaN_eq_false_left x ha) fun y hy => hl y (List.mem_cons_of_mem _ hy)
    refine ⟨le_trans h₁ (minNum_le_left x ha), fun y hy => ?_⟩
    rcases List.mem_cons.1 hy with rfl | hy
    · exact le_trans h₁ (minNum_le_right a hx)
    · exact h₂ y hy

end Folds

end ListScheduling.Double
