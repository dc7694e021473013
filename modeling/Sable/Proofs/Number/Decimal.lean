import Mathlib.Tactic
import Sable.Decimal
import Sable.Proofs.Number.Parts

/-!
The shortest decimal of a number reads back to that number. What reads back to a number lies between the midpoints
to its two neighbours (`ReadsBack`), nothing reads back to two numbers (`eq_of_readsBack`), and so the decimals of
different numbers are different numbers (`value_shortest_injective`).
-/

namespace Sable.Decimal

open Binary64 (leadingBit leastExponent Canonical)

/-- The number that the decimal is. -/
def value (d : Decimal) : ℚ := d.digits * 10 ^ d.exponent

/-! ## Reading back -/

/-- Whether the lower neighbour of a number is half as far away as the upper one. -/
def isNarrow (significand : Nat) (exponent : Int) : Prop :=
  significand = leadingBit ∧ leastExponent < exponent

instance (significand : Nat) (exponent : Int) : Decidable (isNarrow significand exponent) :=
  inferInstanceAs (Decidable (_ ∧ _))

/-- The midpoint between the number and its lower neighbour, in units of two to the power of the exponent. -/
def lowerMidpoint (significand : Nat) (exponent : Int) : ℚ :=
  significand - if isNarrow significand exponent then 1 / 4 else 1 / 2

/-- What reads back to a number lies between the midpoints to its neighbours, on which an even significand wins. -/
structure ReadsBack (significand : Nat) (exponent : Int) (q : ℚ) : Prop where
  low : lowerMidpoint significand exponent * 2 ^ exponent ≤ q
  high : q ≤ (significand + 1 / 2) * 2 ^ exponent
  odd : significand % 2 = 1 →
    lowerMidpoint significand exponent * 2 ^ exponent < q ∧ q < (significand + 1 / 2) * 2 ^ exponent

theorem two_zpow_pos (e : ℤ) : (0 : ℚ) < 2 ^ e := zpow_pos (by norm_num) e

theorem ten_zpow_pos (e : ℤ) : (0 : ℚ) < 10 ^ e := zpow_pos (by norm_num) e

/-- A power with a whole exponent as a quotient of two with natural ones. -/
theorem zpow_eq_div {b : ℚ} (hb : b ≠ 0) (e : ℤ) : b ^ e = b ^ e.toNat / b ^ (-e).toNat := by
  rw [eq_div_iff (pow_ne_zero _ hb), ← zpow_natCast, ← zpow_natCast, ← zpow_add₀ hb]
  congr 1
  omega

variable {significand : Nat} {exponent k : Int} {p : Nat}

/-- Steps of the grid `k` in the unit of a number, turned into the numbers that they are. -/
theorem unit_scaled (significand : Nat) (exponent k : Int) :
    ((grid significand exponent k).unit : ℚ) * (10 ^ k / (grid significand exponent k).step) = 2 ^ exponent := by
  have hten : (10 : ℚ) ^ k = 10 ^ k.toNat / 10 ^ (-k).toNat := zpow_eq_div (by norm_num) k
  have htwo : (2 : ℚ) ^ exponent = 2 ^ exponent.toNat / 2 ^ (-exponent).toNat := zpow_eq_div (by norm_num) exponent
  rw [hten, htwo]
  simp only [grid, Nat.pow_eq, Nat.cast_mul, Nat.cast_pow, Nat.cast_ofNat]
  field_simp

theorem step_pos (significand : Nat) (exponent k : Int) : (0 : ℚ) < (grid significand exponent k).step := by
  have h : 0 < (grid significand exponent k).step := Nat.mul_pos (Nat.pow_pos (by decide)) (Nat.pow_pos (by decide))
  exact_mod_cast h

/-- The comparisons of a point with a multiple of the unit are comparisons of numbers. -/
theorem scaled_iff (significand : Nat) (exponent k : Int) (c p : Nat) :
    (c * (grid significand exponent k).unit ≤ 4 * p * (grid significand exponent k).step ↔
      (c / 4 : ℚ) * 2 ^ exponent ≤ p * 10 ^ k) ∧
    (4 * p * (grid significand exponent k).step ≤ c * (grid significand exponent k).unit ↔
      p * 10 ^ k ≤ (c / 4 : ℚ) * 2 ^ exponent) := by
  have hstep := step_pos significand exponent k
  have hpos : (0 : ℚ) < 10 ^ k / (grid significand exponent k).step := div_pos (ten_zpow_pos k) hstep
  have hleft : ((c * (grid significand exponent k).unit : Nat) : ℚ) *
      (10 ^ k / (grid significand exponent k).step) = 4 * (c / 4 * 2 ^ exponent) := by
    rw [Nat.cast_mul, mul_assoc, unit_scaled]
    ring
  have hright : ((4 * p * (grid significand exponent k).step : Nat) : ℚ) *
      (10 ^ k / (grid significand exponent k).step) = 4 * (p * 10 ^ k) := by
    push_cast
    field_simp
  constructor
  · rw [← Nat.cast_le (α := ℚ), ← mul_le_mul_iff_left₀ hpos, hleft, hright, mul_le_mul_iff_right₀ (by norm_num)]
  · rw [← Nat.cast_le (α := ℚ), ← mul_le_mul_iff_left₀ hpos, hleft, hright, mul_le_mul_iff_right₀ (by norm_num)]

/-- A point of a grid reads back as the grid finds it to. -/
theorem readsBack_of_grid (hpos : 0 < significand) (h : (grid significand exponent k).readsBack p = true) :
    ReadsBack significand exponent (p * 10 ^ k) := by
  set c : Nat := 4 * significand - if (grid significand exponent k).narrow then 1 else 2 with hc
  have hlow : (c / 4 : ℚ) = lowerMidpoint significand exponent := by
    have hnarrow : (grid significand exponent k).narrow = true ↔ isNarrow significand exponent := by
      simp [grid, isNarrow]
    rw [hc, lowerMidpoint]
    simp only [hnarrow]
    split
    · rw [Nat.cast_sub (by omega)]
      push_cast
      ring
    · rw [Nat.cast_sub (by omega)]
      push_cast
      ring
  have hhigh : (((4 * significand + 2 : Nat) : ℚ) / 4) = significand + 1 / 2 := by
    push_cast
    ring
  obtain ⟨hle, hge⟩ := scaled_iff significand exponent k c p
  obtain ⟨hle', hge'⟩ := scaled_iff significand exponent k (4 * significand + 2) p
  rw [hlow] at hle hge
  rw [hhigh] at hle' hge'
  have hsig : (grid significand exponent k).significand = significand := rfl
  simp only [Grid.readsBack, hsig, ← hc] at h
  split at h
  · simp only [Bool.and_eq_true, decide_eq_true_eq] at h
    exact ⟨hle.mp h.1, hge'.mp h.2, fun hodd => by omega⟩
  · simp only [Bool.and_eq_true, decide_eq_true_eq] at h
    have hlt := lt_of_not_ge fun hle => absurd (hge.mpr hle) (Nat.not_le.mpr h.1)
    have hlt' := lt_of_not_ge fun hle => absurd (hle'.mpr hle) (Nat.not_le.mpr h.2)
    exact ⟨hlt.le, hlt'.le, fun _ => ⟨hlt, hlt'⟩⟩

/-! ## What is found reads back -/

theorem readsBack_of_nearest? {g : Grid} {p : Nat} (h : g.nearest? = some p) : g.readsBack p = true := by
  simp only [Grid.nearest?] at h
  split at h
  · rename_i hbelow habove
    cases h
    split
    · exact hbelow
    · exact habove
  · rename_i hbelow _
    cases h
    exact hbelow
  · rename_i _ habove
    cases h
    exact habove
  · cases h

theorem lowerMidpoint_lt (significand : Nat) (exponent : Int) : lowerMidpoint significand exponent < significand := by
  rw [lowerMidpoint]
  split <;> linarith

/-- A number reads back to itself. -/
theorem readsBack_self (significand : Nat) (exponent : Int) :
    ReadsBack significand exponent (significand * 2 ^ exponent) := by
  have hpos := two_zpow_pos exponent
  have hlow := mul_lt_mul_of_pos_right (lowerMidpoint_lt significand exponent) hpos
  have hhigh : (significand : ℚ) * 2 ^ exponent < (significand + 1 / 2) * 2 ^ exponent :=
    mul_lt_mul_of_pos_right (by linarith) hpos
  exact ⟨hlow.le, hhigh.le, fun _ => ⟨hlow, hhigh⟩⟩

theorem value_exact (significand : Nat) (exponent : Int) :
    (exact significand exponent).value = significand * 2 ^ exponent := by
  rw [exact]
  split
  · rename_i h
    obtain ⟨n, rfl⟩ := Int.eq_ofNat_of_zero_le h
    simp [value]
  · rename_i h
    obtain ⟨n, rfl⟩ : ∃ n : Nat, exponent = -n := ⟨(-exponent).toNat, by omega⟩
    have hten : (10 : ℚ) ^ n = 2 ^ n * 5 ^ n := by rw [← mul_pow]; norm_num
    simp [value, hten]
    field_simp

/-- Each decimal that the search ends with reads back. -/
theorem readsBack_search (hpos : 0 < significand) (count : Nat) (k : Int) :
    ReadsBack significand exponent (search significand exponent count k).value := by
  induction count generalizing k with
  | zero =>
    rw [search, value_exact]
    exact readsBack_self significand exponent
  | succ count ih =>
    rw [search]
    split
    · rename_i digits hdigits
      exact readsBack_of_grid hpos (readsBack_of_nearest? hdigits)
    · exact ih (k - 1)

theorem readsBack_shortest (hpos : 0 < significand) :
    ReadsBack significand exponent (shortest significand exponent).value := by
  rw [shortest, if_neg (by omega)]
  exact readsBack_search hpos _ _

theorem value_shortest_zero (exponent : Int) : (shortest 0 exponent).value = 0 := by
  simp [shortest, value]

/-! ## Numbers apart

The midpoints between neighbours keep apart what reads back to different numbers. On a midpoint itself only one of
the two neighbours has an even significand. -/

theorem half_le_lowerMidpoint (significand : Nat) (exponent : Int) :
    (significand : ℚ) - 1 / 2 ≤ lowerMidpoint significand exponent := by
  rw [lowerMidpoint]
  split <;> linarith

theorem ReadsBack.pos {q : ℚ} (h : ReadsBack significand exponent q) (hpos : 0 < significand) : 0 < q := by
  refine lt_of_lt_of_le (mul_pos ?_ (two_zpow_pos exponent)) h.low
  have hone : (1 : ℚ) ≤ significand := by exact_mod_cast hpos
  linarith [half_le_lowerMidpoint significand exponent]

/-- Between a number and a greater one lies a bound, that neither reaches if its significand is odd. -/
theorem not_readsBack_of_le {m m' : Nat} {e e' : Int} {q : ℚ} (h : ReadsBack m e q) (h' : ReadsBack m' e' q)
    (hle : ((m : ℚ) + 1 / 2) * 2 ^ e ≤ lowerMidpoint m' e' * 2 ^ e') (hodd : ((m : ℚ) + 1 / 2) * 2 ^ e =
      lowerMidpoint m' e' * 2 ^ e' → m % 2 = 1 ∨ m' % 2 = 1) : False := by
  have heq : ((m : ℚ) + 1 / 2) * 2 ^ e = lowerMidpoint m' e' * 2 ^ e' := le_antisymm hle (h'.low.trans h.high)
  rcases hodd heq with hm | hm
  · exact absurd (h.odd hm).2 (not_lt.mpr (heq.le.trans h'.low))
  · exact absurd (h'.odd hm).1 (not_lt.mpr (h.high.trans heq.le))

theorem not_readsBack_of_lt {m m' : Nat} {e : Int} {q : ℚ} (h : ReadsBack m e q) (h' : ReadsBack m' e q)
    (hlt : m < m') : False := by
  have hcast : (m : ℚ) + 1 ≤ m' := by exact_mod_cast hlt
  have hlow := half_le_lowerMidpoint m' e
  refine not_readsBack_of_le h h' (mul_le_mul_of_nonneg_right (by linarith) (two_zpow_pos e).le) fun heq => ?_
  have hmid := mul_right_cancel₀ (two_zpow_pos e).ne' heq
  have hnext : m' = m + 1 := by
    have : (m' : ℚ) = m + 1 := by linarith
    exact_mod_cast this
  omega

theorem not_readsBack_of_exponent_lt {m m' : Nat} {e e' : Int} {q : ℚ} (hm : Canonical m e) (hm' : Canonical m' e')
    (h : ReadsBack m e q) (h' : ReadsBack m' e' q) (hlt : e < e') : False := by
  have hbit := Binary64.leadingBit_eq
  have hleast := hm.least
  have hge : leadingBit ≤ m' := Nat.le_of_not_lt fun hsmall => by
    have := hm'.leading hsmall
    omega
  -- The scale of the greater number is at least twice the other one.
  have hscale : (2 : ℚ) * 2 ^ e ≤ 2 ^ e' := by
    rw [← zpow_one_add₀ (by norm_num)]
    exact zpow_le_zpow_right₀ (by norm_num) (by omega)
  have hpos := two_zpow_pos e
  have hm_le : (m : ℚ) + 1 ≤ 2 * leadingBit := by exact_mod_cast hm.lt
  have hbit_le : (leadingBit : ℚ) ≤ m' := by exact_mod_cast hge
  have hlow : (leadingBit : ℚ) - 1 / 4 ≤ lowerMidpoint m' e' := by
    rw [lowerMidpoint]
    split
    · linarith
    · rename_i hnarrow
      have hne : m' ≠ leadingBit := fun heq => hnarrow ⟨heq, by omega⟩
      have : (leadingBit : ℚ) + 1 ≤ m' := by exact_mod_cast Nat.lt_of_le_of_ne hge hne.symm
      linarith
  have hbound : (leadingBit - 1 / 4 : ℚ) * (2 * 2 ^ e) ≤ lowerMidpoint m' e' * 2 ^ e' :=
    mul_le_mul hlow hscale (by positivity) (by linarith [show (1 : ℚ) ≤ leadingBit by rw [hbit]; norm_num])
  refine not_readsBack_of_le h h' (le_trans ?_ hbound) fun heq => .inl ?_
  · rw [← mul_assoc]
    exact mul_le_mul_of_nonneg_right (by linarith) hpos.le
  · -- The bound is met only by the greatest significand, which is odd.
    have hmax : (2 * leadingBit : ℚ) ≤ m + 1 := by
      have := hbound.trans heq.ge
      rw [← mul_assoc, mul_le_mul_iff_left₀ hpos] at this
      linarith
    have : 2 * leadingBit ≤ m + 1 := by exact_mod_cast hmax
    have := hm.lt
    omega

/-- What reads back to two numbers reads back to one. -/
theorem eq_of_readsBack {m m' : Nat} {e e' : Int} {q : ℚ} (hm : Canonical m e) (hm' : Canonical m' e')
    (h : ReadsBack m e q) (h' : ReadsBack m' e' q) : m = m' ∧ e = e' := by
  rcases lt_trichotomy e e' with hlt | rfl | hlt
  · exact (not_readsBack_of_exponent_lt hm hm' h h' hlt).elim
  · rcases lt_trichotomy m m' with hlt | rfl | hlt
    · exact (not_readsBack_of_lt h h' hlt).elim
    · exact ⟨rfl, rfl⟩
    · exact (not_readsBack_of_lt h' h hlt).elim
  · exact (not_readsBack_of_exponent_lt hm' hm h' h hlt).elim

/-- The decimals of different numbers are different numbers. -/
theorem value_shortest_injective {m m' : Nat} {e e' : Int} (hm : Canonical m e) (hm' : Canonical m' e')
    (h : (shortest m e).value = (shortest m' e').value) : m = m' ∧ e = e' := by
  have hzero : ∀ {m e}, Canonical m e → m = 0 → e = leastExponent := fun hm h => hm.leading (by
    rw [h, Binary64.leadingBit_eq]
    decide)
  rcases Nat.eq_zero_or_pos m with h0 | hpos <;> rcases Nat.eq_zero_or_pos m' with h0' | hpos'
  · exact ⟨h0.trans h0'.symm, (hzero hm h0).trans (hzero hm' h0').symm⟩
  · rw [h0, value_shortest_zero] at h
    exact absurd h ((readsBack_shortest hpos').pos hpos').ne
  · rw [h0', value_shortest_zero] at h
    exact absurd h ((readsBack_shortest hpos).pos hpos).ne'
  · exact eq_of_readsBack hm hm' (readsBack_shortest hpos) (h ▸ readsBack_shortest hpos')

end Sable.Decimal
