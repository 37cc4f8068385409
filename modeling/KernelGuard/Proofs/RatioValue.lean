import KernelGuard.Binary.Ratio
import Mathlib.Algebra.Order.Floor.Semifield
import Mathlib.Data.Rat.Floor
import Mathlib.Tactic.FieldSimp
import Mathlib.Tactic.Linarith
import Mathlib.Tactic.Positivity

/-! The rational number that a ratio stands for. Ratios are never reduced, so the
same number has many of them; scaling, the integral part and rounding depend on the
number alone. -/
namespace KernelGuard.Ratio

/-- The number that a ratio stands for. -/
def value (ratio : Ratio) : ℚ := ratio.numerator / ratio.denominator

theorem value_ofNat (n : Nat) : (ofNat n).value = n := by
  simp [ofNat, value]

theorem value_pos {ratio : Ratio} (top : 0 < ratio.numerator) (bottom : 0 < ratio.denominator) :
    0 < ratio.value := by
  unfold value
  positivity

/-- Dividing by a power divides the number. -/
theorem value_divPow (ratio : Ratio) {base : Nat} (positive : 0 < base) (exponent : Int) :
    (ratio.divPow base exponent).value = ratio.value / (base : ℚ) ^ exponent := by
  have nonzero : (base : ℚ) ≠ 0 := by positivity
  unfold divPow
  by_cases up : 0 ≤ exponent
  · obtain ⟨n, rfl⟩ := Int.eq_ofNat_of_zero_le up
    simp [value, div_div]
  · obtain ⟨n, rfl⟩ := Int.exists_eq_neg_ofNat (by omega : exponent ≤ 0)
    rw [if_neg up]
    simp only [value, neg_neg, Int.toNat_natCast, Nat.pow_eq, Nat.cast_mul, Nat.cast_pow,
      zpow_neg, zpow_natCast]
    field_simp

theorem denominator_divPow {ratio : Ratio} (bottom : 0 < ratio.denominator) {base : Nat}
    (positive : 0 < base) (exponent : Int) : 0 < (ratio.divPow base exponent).denominator := by
  unfold divPow
  split
  · exact Nat.mul_pos bottom (Nat.pow_pos positive)
  · exact bottom

theorem floor_eq (ratio : Ratio) : ratio.floor = ⌊ratio.value⌋₊ := by
  rw [value, Nat.floor_div_eq_div]
  rfl

/-- What is left over, as a part of the denominator. -/
private theorem remainder_eq {ratio : Ratio} (bottom : 0 < ratio.denominator) :
    ((ratio.numerator % ratio.denominator : Nat) : ℚ) =
      ratio.denominator * (ratio.value - ratio.floor) := by
  have split : (ratio.numerator : ℚ) =
      ratio.denominator * ratio.floor + (ratio.numerator % ratio.denominator : Nat) := by
    exact_mod_cast (Nat.div_add_mod ratio.numerator ratio.denominator).symm
  have nonzero : (ratio.denominator : ℚ) ≠ 0 := by positivity
  rw [value, mul_sub, mul_div_cancel₀ _ nonzero]
  linarith

/-- Rounding looks at the part behind the point. -/
theorem roundHalfEven_eq {ratio : Ratio} (bottom : 0 < ratio.denominator) :
    ratio.roundHalfEven =
      if 2 * (ratio.value - ⌊ratio.value⌋₊) < 1 ∨
          (2 * (ratio.value - ⌊ratio.value⌋₊) = 1 ∧ ⌊ratio.value⌋₊ % 2 = 0) then
        ⌊ratio.value⌋₊
      else ⌊ratio.value⌋₊ + 1 := by
  have positive : (0 : ℚ) < ratio.denominator := by positivity
  have twice : ((2 * (ratio.numerator % ratio.denominator) : Nat) : ℚ) =
      ratio.denominator * (2 * (ratio.value - ⌊ratio.value⌋₊)) := by
    rw [Nat.cast_mul, remainder_eq bottom, floor_eq, Nat.cast_ofNat]
    ring
  have less : 2 * (ratio.numerator % ratio.denominator) < ratio.denominator ↔
      2 * (ratio.value - ⌊ratio.value⌋₊) < 1 := by
    rw [← Nat.cast_lt (α := ℚ), twice, mul_lt_iff_lt_one_right positive]
  have equal : 2 * (ratio.numerator % ratio.denominator) = ratio.denominator ↔
      2 * (ratio.value - ⌊ratio.value⌋₊) = 1 := by
    rw [← Nat.cast_inj (R := ℚ), twice, mul_eq_left₀ positive.ne']
  unfold roundHalfEven
  simp only [less, equal, floor_eq]

/-- Ratios of the same number round to the same number. -/
theorem roundHalfEven_congr {a b : Ratio} (left : 0 < a.denominator) (right : 0 < b.denominator)
    (same : a.value = b.value) : a.roundHalfEven = b.roundHalfEven := by
  rw [roundHalfEven_eq left, roundHalfEven_eq right, same]

/-- A whole number rounds to itself. -/
theorem roundHalfEven_of_whole {ratio : Ratio} (bottom : 0 < ratio.denominator) {n : Nat}
    (whole : ratio.value = n) : ratio.roundHalfEven = n := by
  rw [roundHalfEven_eq bottom, whole, Nat.floor_natCast, sub_self, mul_zero]
  simp

theorem le_floor_iff {ratio : Ratio} {n : Nat} (positive : 0 ≤ ratio.value) :
    n ≤ ratio.floor ↔ (n : ℚ) ≤ ratio.value := by
  rw [floor_eq, Nat.le_floor_iff positive]

theorem value_nonneg (ratio : Ratio) : 0 ≤ ratio.value := by
  unfold value
  positivity

/-- Rounding does not go below a natural number. -/
theorem le_roundHalfEven {ratio : Ratio} (bottom : 0 < ratio.denominator) {n : Nat}
    (atLeast : (n : ℚ) ≤ ratio.value) : n ≤ ratio.roundHalfEven := by
  have floor : n ≤ ⌊ratio.value⌋₊ := (Nat.le_floor_iff ratio.value_nonneg).mpr atLeast
  rw [roundHalfEven_eq bottom]
  split <;> omega

/-- Rounding does not go past a natural number. -/
theorem roundHalfEven_le {ratio : Ratio} (bottom : 0 < ratio.denominator) {n : Nat}
    (atMost : ratio.value ≤ n) : ratio.roundHalfEven ≤ n := by
  rcases atMost.lt_or_eq with below | whole
  · have floor : ⌊ratio.value⌋₊ < n := (Nat.floor_lt ratio.value_nonneg).mpr below
    rw [roundHalfEven_eq bottom]
    split <;> omega
  · exact (roundHalfEven_of_whole bottom whole).le

/-- Rounding stays below an even number up to half way from the number before it, which is
odd and gives the tie away. -/
theorem roundHalfEven_lt_iff {ratio : Ratio} (bottom : 0 < ratio.denominator) {n : Nat}
    (even : n % 2 = 0) : ratio.roundHalfEven < n ↔ ratio.value < n - 1 / 2 := by
  have atLeast : (⌊ratio.value⌋₊ : ℚ) ≤ ratio.value := Nat.floor_le ratio.value_nonneg
  have below : ratio.value < ⌊ratio.value⌋₊ + 1 := Nat.lt_floor_add_one ratio.value
  rw [roundHalfEven_eq bottom]
  generalize ⌊ratio.value⌋₊ = whole at *
  have cast : ∀ {a b : Nat}, a ≤ b → (a : ℚ) ≤ b := Nat.cast_le.mpr
  split
  · rename_i down
    constructor
    · intro less
      by_cases last : whole + 1 = n
      · have odd : whole % 2 ≠ 0 := by omega
        have half := down.resolve_right fun tie => odd tie.2
        rw [← last]
        push_cast
        linarith
      · have room : (whole + 2 : Nat) ≤ (n : ℚ) := cast (by omega)
        push_cast at room
        linarith
    · intro less
      by_contra more
      have := cast (Nat.le_of_not_lt more)
      linarith
  · rename_i up
    constructor
    · intro less
      have room : (whole + 1 + 1 : Nat) ≤ (n : ℚ) := cast less
      push_cast at room
      linarith
    · intro less
      by_contra more
      have room := cast (Nat.le_of_not_lt more)
      push_cast at room
      have half : ¬2 * (ratio.value - whole) < 1 := fun half => up (.inl half)
      linarith

end KernelGuard.Ratio
