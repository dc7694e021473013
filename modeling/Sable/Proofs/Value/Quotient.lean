import Mathlib.Data.Rat.Floor
import Mathlib.Tactic.Linarith
import Sable.RuntimeError

/-! Floor division of big integers. The machine's quotient is rounded toward zero, and one is taken off where that has gone up:
where something remains, with the sign that the divisor does not have. -/
namespace Sable.Value

variable {a b q r : Int}

/-- The remainder `r` lies between zero and the divisor `b`, on its side. -/
def IsRemainder (r b : Int) : Prop := 0 ≤ r ∧ r < b ∨ b < r ∧ r ≤ 0

theorem isRemainder_iff : IsRemainder r b ↔ (r = 0 ∨ r.sign = b.sign) ∧ |r| < |b| := by
  rw [IsRemainder, Int.abs_eq_natAbs, Int.abs_eq_natAbs]
  rcases Int.lt_trichotomy r 0 with hr | rfl | hr
  · rw [Int.sign_eq_neg_one_of_neg hr, eq_comm (a := -1), Int.sign_eq_neg_one_iff_neg]
    omega
  · rw [Int.natAbs_zero]
    omega
  · rw [Int.sign_eq_one_of_pos hr, eq_comm (a := 1), Int.sign_eq_one_iff_pos]
    omega

/-- Only one quotient leaves such a remainder, and that is the exact one rounded down. -/
theorem isRemainder_iff_eq_floor (hb : b ≠ 0) : IsRemainder (a - b * q) b ↔ q = ⌊(a : ℚ) / b⌋ := by
  rw [eq_comm, Int.floor_eq_iff, IsRemainder]
  rcases Int.lt_or_gt_of_ne hb with hneg | hpos
  · have hcast : (b : ℚ) < 0 := Int.cast_lt_zero.mpr hneg
    rw [le_div_iff_of_neg hcast, div_lt_iff_of_neg hcast]
    norm_cast
    constructor
    · rintro (⟨_, _⟩ | ⟨_, _⟩) <;> constructor <;> linarith
    · rintro ⟨_, _⟩
      exact .inr (by constructor <;> linarith)
  · have hcast : (0 : ℚ) < b := Int.cast_pos.mpr hpos
    rw [le_div_iff₀ hcast, div_lt_iff₀ hcast]
    norm_cast
    constructor
    · rintro (⟨_, _⟩ | ⟨_, _⟩) <;> constructor <;> linarith
    · rintro ⟨_, _⟩
      exact .inl (by constructor <;> linarith)

/-- What remains of a division rounded toward zero has the sign of the dividend. -/
theorem tmod_nonpos (b : Int) (ha : a ≤ 0) : a.tmod b ≤ 0 := by
  have hneg := Int.tmod_nonneg b (Int.neg_nonneg_of_nonpos ha)
  rw [Int.neg_tmod] at hneg
  omega

theorem natAbs_tmod_lt (a : Int) (hb : b ≠ 0) : (a.tmod b).natAbs < b.natAbs := by
  rw [Int.natAbs_tmod]
  exact Nat.mod_lt _ (Int.natAbs_pos.mpr hb)

/-- What remains of the floor division: nothing is put back where the quotient has gone down anyway. -/
theorem sub_mul_floorQuotient (a b : Int) : a - b * floorQuotient a b =
    if a.tmod b ≠ 0 ∧ decide (a < 0) ≠ decide (b < 0) then a.tmod b + b else a.tmod b := by
  have hexact := Int.mul_tdiv_add_tmod a b
  rw [floorQuotient]
  split
  · rw [Int.mul_sub, Int.mul_one]
    omega
  · omega

theorem isRemainder_floorQuotient (a : Int) (hb : b ≠ 0) : IsRemainder (a - b * floorQuotient a b) b := by
  have hless := natAbs_tmod_lt a hb
  have hnonneg : 0 ≤ a → 0 ≤ a.tmod b := Int.tmod_nonneg b
  have hnonpos : a ≤ 0 → a.tmod b ≤ 0 := tmod_nonpos b
  rw [sub_mul_floorQuotient, IsRemainder]
  split
  · rename_i hcorrected
    obtain ⟨hrest, hsigns⟩ := hcorrected
    rw [ne_eq, decide_eq_decide] at hsigns
    omega
  · rename_i hkept
    rw [ne_eq, ne_eq, decide_eq_decide] at hkept
    omega

theorem arithmetic_floorDivide {κ : Type} (a b : Int) :
    arithmetic .floorDivide (bigInteger a : Value κ) (bigInteger b) =
      if b = 0 then .error .divisionByZero else .ok (bigInteger (floorQuotient a b)) := by
  rw [arithmetic, bigIntegerArithmetic]
  split <;> rfl

/-- Floor division of big integers is division rounded down: what remains is nothing or has the sign of the divisor, and it is
smaller. It gives this quotient for every divisor other than zero, and for zero the error that says so. -/
theorem floorDivide_bigInteger {κ : Type} (a b : Int) :
    (b ≠ 0 → (a - b * floorQuotient a b = 0 ∨ (a - b * floorQuotient a b).sign = b.sign) ∧
        |a - b * floorQuotient a b| < |b| ∧ floorQuotient a b = ⌊(a : ℚ) / b⌋) ∧
      (∀ v : Value κ, arithmetic .floorDivide (bigInteger a) (bigInteger b) = .ok v ↔
        b ≠ 0 ∧ v = bigInteger (floorQuotient a b)) ∧
      (∀ fault, arithmetic .floorDivide (bigInteger a : Value κ) (bigInteger b) = .error fault ↔
        b = 0 ∧ fault = .divisionByZero) ∧
      RuntimeFault.divisionByZero.message = "division by zero" := by
  refine ⟨fun hb => ?_, fun v => ?_, fun fault => ?_, rfl⟩
  · have hremainder := isRemainder_floorQuotient a hb
    obtain ⟨hsign, hless⟩ := isRemainder_iff.mp hremainder
    exact ⟨hsign, hless, (isRemainder_iff_eq_floor hb).mp hremainder⟩
  · rw [arithmetic_floorDivide]
    split <;> simp [*, eq_comm]
  · rw [arithmetic_floorDivide]
    split <;> simp [*, eq_comm]

/-- The quotient of minus seven and two is minus four. -/
theorem floorDivide_bigInteger_neg_seven :
    (2 : Int) ≠ 0 ∧ floorQuotient (-7) 2 = -4 ∧ ⌊((-7 : Int) : ℚ) / (2 : Int)⌋ = -4 ∧
      arithmetic .floorDivide (bigInteger (-7) : Value Unit) (bigInteger 2) = .ok (bigInteger (-4)) := by
  have hquotient : floorQuotient (-7) 2 = -4 := by decide
  obtain ⟨hfloor, hgiven, -⟩ := floorDivide_bigInteger (κ := Unit) (-7) 2
  obtain ⟨-, -, hexact⟩ := hfloor (by decide)
  exact ⟨by decide, hquotient, hexact.symm.trans hquotient, (hgiven _).mpr ⟨by decide, congrArg _ hquotient.symm⟩⟩

end Sable.Value
