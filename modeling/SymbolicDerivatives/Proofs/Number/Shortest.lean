import SymbolicDerivatives.Number.Shortest
import SymbolicDerivatives.Proofs.Number.Digits
import SymbolicDerivatives.Proofs.Number.Nearest
import Mathlib.Tactic.FieldSimp

/-!
# Shortest decimals read back

The shortest decimal of a double is found on grids of more and more digits, among the points next to
the double. Every point that is taken lies in the interval of the numbers that round to the double.
With seventeen digits one of the two neighbours does: they are closer together than the ends of the
interval.
-/

namespace SymbolicDerivatives.Binary

open Number

variable {b : Binary} {c : ℕ} {k : ℤ}

/-! ## Grids -/

theorem ten_pow_div_ten_pow (k : ℤ) : (10 : ℚ) ^ k.toNat / 10 ^ (-k).toNat = 10 ^ k := by
  rw [← zpow_natCast, ← zpow_natCast, ← zpow_sub₀ (by decide)]
  congr 1
  omega

theorem grid_up_pos (b : Binary) (k : ℤ) : 0 < (b.grid k).up :=
  Nat.mul_pos b.factor_pos (Nat.pow_pos (by decide))

theorem grid_down_pos (b : Binary) (k : ℤ) : 0 < (b.grid k).down :=
  Nat.mul_pos (Nat.mul_pos (by decide) b.divisor_pos) (Nat.pow_pos (by decide))

/-- The distance of points of a grid, in quarters of the distance of doubles. -/
theorem down_div_up (b : Binary) (k : ℤ) :
    ((b.grid k).down : ℚ) / (b.grid k).up = 4 * (10 ^ k / 2 ^ b.exponent) := by
  have hfactor : (b.factor : ℚ) ≠ 0 := by exact_mod_cast b.factor_pos.ne'
  have hdivisor : (b.divisor : ℚ) ≠ 0 := by exact_mod_cast b.divisor_pos.ne'
  rw [grid, ← cast_factor_div_divisor, ← ten_pow_div_ten_pow]
  push_cast [Nat.pow_eq]
  field_simp

/-- A point of a grid, in quarters of the distance of doubles. -/
theorem four_mul_point (b : Binary) (k : ℤ) (c : ℕ) :
    4 * (c * 10 ^ k / 2 ^ b.exponent : ℚ) = (c * (b.grid k).down : ℕ) / (b.grid k).up := by
  rw [Nat.cast_mul, mul_div_assoc _ _ (((b.grid k).up : ℕ) : ℚ), down_div_up]
  ring

/-- The points that round to a double are those of the interval around it. -/
theorem roundsFrom_iff (h : 0 < b.mantissa) :
    b.roundsFrom (b.grid k) c = true ↔
      IsAround b.mantissa b.narrow (c * 10 ^ k / 2 ^ b.exponent) := by
  have hup : (0 : ℚ) < (b.grid k).up := by exact_mod_cast b.grid_up_pos k
  have hlow : (((4 * b.mantissa - if b.narrow then 1 else 2) * (b.grid k).up : ℕ) : ℚ) =
      (4 * b.mantissa - if b.narrow then 1 else 2) * (b.grid k).up := by
    rw [Nat.cast_mul, Nat.cast_sub (by split <;> omega)]
    split <;> push_cast <;> rfl
  have hhigh : (((4 * b.mantissa + 2) * (b.grid k).up : ℕ) : ℚ) =
      (4 * b.mantissa + 2) * (b.grid k).up := by
    push_cast
    rfl
  rw [roundsFrom]
  split
  · next heven =>
    rw [Bool.and_eq_true, decide_eq_true_eq, decide_eq_true_eq, ← @Nat.cast_le ℚ,
      ← @Nat.cast_le ℚ, hlow, hhigh, ← le_div_iff₀ hup, ← div_le_iff₀ hup, ← four_mul_point]
    exact ⟨fun ⟨hl, hu⟩ ↦ ⟨hl, hu, fun hodd ↦ by omega⟩, fun h ↦ ⟨h.lower, h.upper⟩⟩
  · next hodd =>
    rw [Bool.and_eq_true, decide_eq_true_eq, decide_eq_true_eq, ← @Nat.cast_lt ℚ,
      ← @Nat.cast_lt ℚ, hlow, hhigh, ← lt_div_iff₀ hup, ← div_lt_iff₀ hup, ← four_mul_point]
    exact ⟨fun ⟨hl, hu⟩ ↦ ⟨hl.le, hu.le, fun _ ↦ ⟨hl, hu⟩⟩, fun h ↦ h.strict (by omega)⟩

/-! ## The points next to a double -/

theorem roundsFrom_of_nearest?_eq_some {g : Grid} (h : b.nearest? g = some c) :
    b.roundsFrom g c = true := by
  rw [nearest?] at h
  split at h
  · cases h
  · next hbelow _ => exact Option.some.inj h ▸ hbelow
  · next _ habove => exact Option.some.inj h ▸ habove
  · next hbelow habove =>
    dsimp only at h
    split at h
    · exact Option.some.inj h ▸ hbelow
    · exact Option.some.inj h ▸ habove

theorem roundsFrom_of_nearest?_eq_none {g : Grid} (h : b.nearest? g = none) :
    b.roundsFrom g (b.pointBelow g) = false ∧ b.roundsFrom g (b.pointBelow g + 1) = false := by
  rw [nearest?] at h
  split at h
  · next hbelow habove => exact ⟨hbelow, habove⟩
  · cases h
  · cases h
  · dsimp only at h
    split at h <;> cases h

/-- A decimal that is taken is the point of a grid that rounds to the double. -/
theorem isAround_of_decimal?_eq_some (h : 0 < b.mantissa) {count : ℕ} {d : Decimal}
    (hd : b.decimal? count = some d) :
    IsAround b.mantissa b.narrow (d.digits * 10 ^ d.exponent / 2 ^ b.exponent) := by
  obtain ⟨c, hc, rfl⟩ := Option.map_eq_some_iff.1 hd
  have haround := (roundsFrom_iff h).1 (roundsFrom_of_nearest?_eq_some hc)
  split
  · next hfull =>
    rw [hfull, Nat.pow_eq, Nat.cast_pow, Nat.cast_ofNat, ← zpow_natCast, ← zpow_add₀ (by decide),
      add_comm] at haround
    rwa [Nat.cast_one, one_mul]
  · exact haround

/-! ## Seventeen digits suffice -/

theorem exists_scaled_ge_one (h : 0 < b.mantissa) (he : -1074 ≤ b.exponent) :
    b.divisor ≤ b.mantissa * b.factor * Nat.pow 10 329 := by
  have hpow : 2 ^ 1074 ≤ Nat.pow 10 329 := by decide +kernel
  obtain ⟨d, hd⟩ : ∃ d, (-b.exponent).toNat + d = 1074 :=
    ⟨1074 - (-b.exponent).toNat, by omega⟩
  rw [← hd] at hpow
  have hdivisor : b.divisor ≤ Nat.pow 10 329 :=
    (Nat.pow_le_pow_right two_pos (Nat.le_add_right _ d)).trans hpow
  exact hdivisor.trans (Nat.le_mul_of_pos_left _ (Nat.mul_pos h b.factor_pos))

theorem ten_pow_magnitude_le (h : 0 < b.mantissa) (he : -1074 ≤ b.exponent) :
    (10 : ℚ) ^ b.magnitude ≤ b.mantissa * 2 ^ b.exponent := by
  have hdivisor : (0 : ℚ) < b.divisor := by exact_mod_cast b.divisor_pos
  rw [← cast_mul_factor_div_divisor, le_div_iff₀ hdivisor, magnitude]
  split
  · obtain ⟨i, hi⟩ : ∃ i, (List.range 330).find? (fun i ↦
        b.divisor ≤ b.mantissa * b.factor * Nat.pow 10 i) = some i := by
      rw [← Option.isSome_iff_exists, List.find?_isSome]
      exact ⟨329, List.mem_range.2 (by decide), decide_eq_true (exists_scaled_ge_one h he)⟩
    have hscaled : b.divisor ≤ b.mantissa * b.factor * Nat.pow 10 i := by
      simpa using List.find?_some hi
    rw [hi, Option.getD_some, zpow_neg, zpow_natCast, inv_mul_le_iff₀ (by positivity), mul_comm]
    exact_mod_cast hscaled
  · next hquotient =>
    have hpow := pow_digitCount_le (Nat.pos_of_ne_zero hquotient)
    have hexponent : (digitCount (b.mantissa * b.factor / b.divisor) - 1 : ℤ) =
        (digitCount (b.mantissa * b.factor / b.divisor) - 1 : ℕ) := by
      rw [Nat.cast_sub (digitCount_pos _), Nat.cast_one]
    rw [hexponent, zpow_natCast]
    exact_mod_cast (Nat.le_div_iff_mul_le b.divisor_pos).1 hpow

theorem scale_seventeen (b : Binary) : b.scale 17 = b.magnitude - 16 := rfl

/-- The points with seventeen digits are close together. -/
theorem ten_pow_scale_le (h : 0 < b.mantissa) (he : -1074 ≤ b.exponent) :
    (10 : ℚ) ^ b.scale 17 / 2 ^ b.exponent * 10 ^ 16 ≤ b.mantissa := by
  have hpos : (0 : ℚ) < 2 ^ b.exponent := by positivity
  have hscale : (10 : ℚ) ^ b.scale 17 * 10 ^ 16 = 10 ^ b.magnitude := by
    rw [scale_seventeen, ← zpow_natCast, ← zpow_add₀ (by decide)]
    congr 1
    omega
  rw [div_mul_eq_mul_div, hscale, div_le_iff₀ hpos]
  exact ten_pow_magnitude_le h he

theorem pointBelow_le (b : Binary) (k : ℤ) :
    (b.pointBelow (b.grid k) * 10 ^ k / 2 ^ b.exponent : ℚ) ≤ b.mantissa := by
  have hup : (0 : ℚ) < (b.grid k).up := by exact_mod_cast b.grid_up_pos k
  refine le_of_mul_le_mul_left ?_ (by decide : (0 : ℚ) < 4)
  rw [four_mul_point, div_le_iff₀ hup]
  exact_mod_cast Nat.div_mul_le_self (4 * b.mantissa * (b.grid k).up) (b.grid k).down

theorem lt_pointBelow_add_one (b : Binary) (k : ℤ) :
    (b.mantissa : ℚ) < (b.pointBelow (b.grid k) + 1 : ℕ) * 10 ^ k / 2 ^ b.exponent := by
  have hup : (0 : ℚ) < (b.grid k).up := by exact_mod_cast b.grid_up_pos k
  refine lt_of_mul_lt_mul_left ?_ (by decide : (0 : ℚ) ≤ 4)
  rw [four_mul_point, lt_div_iff₀ hup]
  exact_mod_cast (Nat.div_lt_iff_lt_mul (b.grid_down_pos k)).1 (Nat.lt_succ_self _)

theorem exists_decimal?_seventeen (h : 0 < b.mantissa) (he : -1074 ≤ b.exponent)
    (hm : b.mantissa < 2 ^ 53) (hnarrow : b.narrow = true → b.mantissa = 2 ^ 52) :
    ∃ d, b.decimal? 17 = some d := by
  rw [← Option.isSome_iff_exists, decimal?, Option.isSome_map, Option.isSome_iff_ne_none]
  intro hnone
  obtain ⟨hbelow, habove⟩ := roundsFrom_of_nearest?_eq_none hnone
  rw [← Bool.not_eq_true, roundsFrom_iff h] at hbelow habove
  have hle := pointBelow_le b (b.scale 17)
  have hlt := lt_pointBelow_add_one b (b.scale 17)
  have hclose := ten_pow_scale_le h he
  have hwidth : (0 : ℚ) < if b.narrow then 1 else 2 := by split <;> norm_num
  -- The neighbours are outside of the interval, one on each side.
  have hlower := not_lt.1 fun hlower ↦ hbelow (.of_lt hlower (by linarith))
  have hupper := not_lt.1 fun hupper ↦ habove (.of_lt (by linarith) hupper)
  rw [Nat.cast_add, Nat.cast_one, add_mul, add_div, one_mul] at hupper
  have hm' : (b.mantissa : ℚ) < 2 ^ 53 := by exact_mod_cast hm
  cases hb : b.narrow with
  | false =>
    rw [hb, if_neg Bool.false_ne_true] at hlower
    linarith
  | true =>
    have hm' : (b.mantissa : ℚ) = 2 ^ 52 := by exact_mod_cast hnarrow hb
    rw [hb, if_pos rfl] at hlower
    linarith

/-- **The shortest decimal of a double reads back.** It lies in the interval around the double. -/
theorem isAround_shortest (h : 0 < b.mantissa) (he : -1074 ≤ b.exponent)
    (hm : b.mantissa < 2 ^ 53) (hnarrow : b.narrow = true → b.mantissa = 2 ^ 52) :
    IsAround b.mantissa b.narrow
      (b.shortest.digits * 10 ^ b.shortest.exponent / 2 ^ b.exponent) := by
  obtain ⟨d, hd⟩ := exists_decimal?_seventeen h he hm hnarrow
  obtain ⟨d', hd'⟩ : ∃ d', (List.range 17).findSome? (fun i ↦ b.decimal? (i + 1)) = some d' := by
    rw [← Option.isSome_iff_exists, List.findSome?_isSome_iff]
    exact ⟨16, List.mem_range.2 (by decide), Option.isSome_iff_exists.2 ⟨d, hd⟩⟩
  obtain ⟨i, -, hi⟩ := List.exists_of_findSome?_eq_some hd'
  rw [shortest, hd', Option.getD_some]
  exact isAround_of_decimal?_eq_some h hi

end SymbolicDerivatives.Binary
