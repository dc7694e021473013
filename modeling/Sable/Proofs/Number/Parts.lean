import Mathlib.Data.List.Basic
import Sable.Binary64

/-!
The parts of binary64 numbers: which significands and exponents there are, and that parts tell numbers apart. Main
statements: `canonical_of_ofFloat`, `ofFloat_injective` and `ofFloat_eq_nan_iff`.
-/

namespace Sable.Binary64

/-- The parts of a finite number: a significand of fifty-three bits, of less only at the least exponent. -/
structure Canonical (significand : Nat) (exponent : Int) : Prop where
  lt : significand < 2 * leadingBit
  least : leastExponent ≤ exponent
  leading : significand < leadingBit → exponent = leastExponent

theorem leadingBit_eq : leadingBit = 4503599627370496 := by decide

/-- The bits of a number with the given parts. The leading bit of a significand adds one to the field of the
exponent. -/
def bits : Binary64 → Nat
  | nan => 0
  | infinite negative => negative.toNat * Nat.pow 2 63 + 2047 * leadingBit
  | finite negative significand exponent =>
    negative.toNat * Nat.pow 2 63 + (exponent - leastExponent).toNat * leadingBit + significand

theorem ofFloat_eq (x : Float) : ofFloat x =
    let bits := x.toBits.toNat
    let negative := bits / 9223372036854775808 == 1
    let field := bits / 4503599627370496 % 2048
    let fraction := bits % 4503599627370496
    if field = 2047 then if fraction = 0 then .infinite negative else .nan
    else if field = 0 then .finite negative fraction (-1074)
    else .finite negative (4503599627370496 + fraction) (field - 1075) := rfl

theorem canonical_of_ofFloat {x : Float} {negative : Bool} {significand : Nat} {exponent : Int}
    (h : ofFloat x = .finite negative significand exponent) : Canonical significand exponent := by
  rw [ofFloat_eq] at h
  dsimp only at h
  split at h
  · split at h <;> cases h
  · split at h
    · cases h
      refine ⟨?_, ?_, fun _ => rfl⟩ <;> simp only [leadingBit_eq, leastExponent] <;> omega
    · cases h
      refine ⟨?_, ?_, fun hlt => ?_⟩ <;> simp only [leadingBit_eq, leastExponent] at * <;> omega

theorem toNat_beq_one {n : Nat} (h : n < 2) : (n == 1).toNat = n := by
  match n with
  | 0 | 1 => rfl
  | n + 2 => omega

theorem bits_ofFloat {x : Float} (hx : ofFloat x ≠ .nan) : (ofFloat x).bits = x.toBits.toNat := by
  have hlt := x.toBits.toNat_lt
  rw [ofFloat_eq] at hx ⊢
  generalize x.toBits.toNat = b at hlt hx ⊢
  have hsign := toNat_beq_one (n := b / 9223372036854775808) (by omega)
  have hpow : Nat.pow 2 63 = 9223372036854775808 := by decide
  dsimp only at hx ⊢
  split
  · split
    · simp only [bits, hsign, hpow, leadingBit_eq]
      omega
    · simp_all
  · split <;> simp only [bits, hsign, hpow, leadingBit_eq, leastExponent] <;> omega

theorem toBits_injective {x y : Float} (h : x.toBits = y.toBits) : x = y := by
  obtain ⟨⟨a, ha⟩⟩ := x
  obtain ⟨⟨b, hb⟩⟩ := y
  obtain rfl : a = b := h
  rfl

/-- Numbers are told apart by their parts. -/
theorem ofFloat_injective {x y : Float} (hx : ofFloat x ≠ .nan) (h : ofFloat x = ofFloat y) : x = y := by
  refine toBits_injective (UInt64.toNat_inj.mp ?_)
  rw [← bits_ofFloat hx, h, bits_ofFloat (h ▸ hx)]

section NaN

open Float.Model UnpackedFloat

/-- The field of the exponent and the fraction that are not those of a number. -/
theorem isNaN_eq (x : Float) :
    x.isNaN = (decide (@unpackExponent Format.binary64 x.toBits.toBitVec = -1#11) &&
      decide (@unpackMantissa Format.binary64 x.toBits.toBitVec ≠ 0#52)) := by
  have h : x.isNaN = (UnpackedFloat.unpack Format.binary64 x.toBits.toBitVec).isNaN := rfl
  rw [h]
  unfold UnpackedFloat.unpack
  dsimp only
  by_cases hexponent : @unpackExponent Format.binary64 x.toBits.toBitVec = -1#11
  · rw [if_pos hexponent, decide_eq_true hexponent, Bool.true_and]
    by_cases hmantissa : @unpackMantissa Format.binary64 x.toBits.toBitVec = 0#52
    · rw [if_pos hmantissa, decide_eq_false (not_not_intro hmantissa)]
      rfl
    · rw [if_neg hmantissa, decide_eq_true hmantissa]
      rfl
  · rw [if_neg hexponent, decide_eq_false hexponent, Bool.false_and]
    by_cases hzero : @unpackExponent Format.binary64 x.toBits.toBitVec = 0#11
    · rw [if_pos hzero]
      by_cases hmantissa : @unpackMantissa Format.binary64 x.toBits.toBitVec = 0#52
      · rw [dif_pos hmantissa]
        rfl
      · rw [dif_neg hmantissa]
        rfl
    · rw [if_neg hzero]
      rfl

theorem ofFloat_eq_nan_iff {x : Float} : ofFloat x = .nan ↔ x.isNaN = true := by
  have hexponent : @unpackExponent Format.binary64 x.toBits.toBitVec = -1#11 ↔
      x.toBits.toNat / 4503599627370496 % 2048 = 2047 := by
    rw [← BitVec.toNat_inj, unpackExponent]
    simp [Nat.shiftRight_eq_div_pow]
  have hmantissa : @unpackMantissa Format.binary64 x.toBits.toBitVec = 0#52 ↔
      x.toBits.toNat % 4503599627370496 = 0 := by
    rw [← BitVec.toNat_inj, unpackMantissa]
    simp
  rw [isNaN_eq, ofFloat_eq]
  dsimp only
  split
  · split <;> simp_all
  · split <;> simp_all

/-- What is a number equals itself. -/
theorem beq_self {x : Float} (h : x.isNaN = false) : (x == x) = true := by
  have hparts : ∀ u : UnpackedFloat, u.isNaN = false → u.beq u = true := by
    intro u hu
    cases u with
    | notANumber => cases hu
    | infinity s => cases s <;> rfl
    | zero s => rfl
    | finite s m e hm =>
      have hordering : (compare e e).then (compare m m) = .eq := by simp
      cases s with
      | positive =>
        change (some ((compare e e).then (compare m m)) == some .eq) = true
        rw [hordering]
        rfl
      | negative =>
        change (some ((compare e e).then (compare m m)).swap == some .eq) = true
        rw [hordering]
        rfl
  exact hparts _ h

end NaN

end Sable.Binary64
