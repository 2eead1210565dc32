import SymbolicDerivatives.Proofs.Number.Packing
import SymbolicDerivatives.Proofs.Number.Rounding

/-!
# What rounding gives

A rounded number is a double in canonical form. It is never above a power of two that the exact
number is not above, and it is the double `m · 2 ^ e` as soon as the exact number lies in the
interval around it, which reaches half way to the neighbouring doubles. Towards zero the neighbour
of a power of two is only half as far away.
-/

namespace SymbolicDerivatives

/-! ## Scales -/

namespace Binary

theorem factor_pos (b : Binary) : 0 < b.factor := Nat.two_pow_pos _

theorem divisor_pos (b : Binary) : 0 < b.divisor := Nat.two_pow_pos _

theorem cast_factor_div_divisor (b : Binary) :
    (b.factor : ℚ) / b.divisor = 2 ^ b.exponent := by
  rw [factor, divisor, Nat.pow_eq, Nat.pow_eq]
  push_cast
  rw [← zpow_natCast, ← zpow_natCast, ← zpow_sub₀ two_ne_zero]
  congr 1
  omega

theorem cast_mul_factor_div_divisor (b : Binary) :
    ((b.mantissa * b.factor : ℕ) : ℚ) / b.divisor = b.mantissa * 2 ^ b.exponent := by
  rw [Nat.cast_mul, mul_div_assoc, cast_factor_div_divisor]

end Binary

namespace Number

open Float.Model (UnpackedFloat)
open Float.Model.UnpackedFloat

/-! ## Canonical doubles -/

/-- A zero, or a finite double in canonical form, whatever its exponent. -/
inductive IsCanonical : UnpackedFloat → Prop
  | zero (s : Sign) : IsCanonical (.zero s)
  | finite (s : Sign) {m : ℕ} {e : ℤ} (h : 0 < m) (canonical : Canonical m e) :
      IsCanonical (.finite s m e h)

/-- The size of a number; infinities and not-a-numbers have none. -/
def magnitude : UnpackedFloat → ℚ
  | .finite _ m e _ => m * 2 ^ e
  | _ => 0

theorem magnitude_onGrid (s : Sign) (n : ℕ) (t : ℤ) : magnitude (onGrid s n t) = n * 2 ^ t := by
  rw [onGrid]
  split
  · next h => rw [h, Nat.cast_zero, zero_mul]; rfl
  · split
    · next h =>
      rw [h, magnitude, zpow_add_one₀ two_ne_zero]
      push_cast
      ring
    · rfl

section Rounds

variable {s : Sign} {x : ℚ} {u : UnpackedFloat} {t : ℤ} {n : ℕ}

theorem IsGrid.le_nearest (h : IsGrid t x) (hn : IsNearest n (x / 2 ^ t)) :
    2 ^ 52 ≤ n ∨ t = -1074 := by
  refine h.normal.imp_left fun hx ↦ hn.ge_of_ge ?_
  rw [le_div_iff₀ (by positivity)]
  exact_mod_cast hx

theorem IsGrid.nearest_le (h : IsGrid t x) (hn : IsNearest n (x / 2 ^ t)) : n ≤ 2 ^ 53 := by
  refine hn.le_of_le ?_
  rw [div_le_iff₀ (by positivity)]
  exact_mod_cast h.lt.le

/-- Numbers on a coarser grid are larger. -/
theorem IsGrid.lt_of_lt {t' : ℤ} {y : ℚ} (h : IsGrid t x) (h' : IsGrid t' y) (hlt : t < t') :
    x < y := by
  have hge := h.ge
  have hy := h'.normal.resolve_right (by omega)
  have hpow : (2 : ℚ) ^ ((1 : ℕ) + t) ≤ 2 ^ t' := zpow_le_zpow_right₀ one_le_two (by omega)
  rw [zpow_natCast_add] at hpow
  linarith [h.lt]

theorem IsGrid.unique {t' : ℤ} (h : IsGrid t x) (h' : IsGrid t' x) : t = t' := by
  rcases lt_trichotomy t t' with hlt | heq | hlt
  · exact absurd (h.lt_of_lt h' hlt) (lt_irrefl x)
  · exact heq
  · exact absurd (h'.lt_of_lt h hlt) (lt_irrefl x)

theorem Rounds.isCanonical (h : Rounds s x u) : IsCanonical u := by
  obtain @⟨n, t, grid, nearest⟩ := h
  have hle := grid.nearest_le nearest
  have hge := grid.ge
  rw [onGrid]
  split
  · exact .zero s
  · split
    · exact .finite s _ ⟨by decide, by omega, .inl (Nat.le_refl _)⟩
    · exact .finite s _ ⟨by omega, hge, grid.le_nearest nearest⟩

/-- Rounding does not pass a power of two, unless it is too small to be a double. -/
theorem Rounds.magnitude_le (h : Rounds s x u) {k : ℤ} (hk : -1074 ≤ k) (hx : x ≤ 2 ^ k) :
    magnitude u ≤ 2 ^ k := by
  obtain @⟨n, t, grid, nearest⟩ := h
  have ht : t ≤ k := by
    rcases grid.normal with hnormal | rfl
    · have hle : (2 : ℚ) ^ ((52 : ℕ) + t) ≤ 2 ^ k := by
        rw [zpow_natCast_add]
        exact hnormal.trans hx
      have := (zpow_le_zpow_iff_right₀ one_lt_two).1 hle
      omega
    · exact hk
  obtain ⟨d, rfl⟩ : ∃ d : ℕ, k = d + t := ⟨(k - t).toNat, by omega⟩
  rw [zpow_natCast_add] at hx ⊢
  rw [magnitude_onGrid]
  have hn : n ≤ 2 ^ d := by
    refine nearest.le_of_le ?_
    rw [div_le_iff₀ (by positivity)]
    exact_mod_cast hx
  exact mul_le_mul_of_nonneg_right (by exact_mod_cast hn) (by positivity)

theorem Rounds.magnitude_mono {s' : Sign} {y : ℚ} {w : UnpackedFloat} (hu : Rounds s x u)
    (hw : Rounds s' y w) (hxy : x ≤ y) : magnitude u ≤ magnitude w := by
  obtain @⟨n, t, grid, nearest⟩ := hu
  obtain @⟨n', t', grid', nearest'⟩ := hw
  rw [magnitude_onGrid, magnitude_onGrid]
  rcases lt_trichotomy t t' with hlt | rfl | hlt
  · -- the power of two between the grids is between the rounded numbers
    have hn : (n : ℚ) ≤ 2 ^ 53 := by exact_mod_cast grid.nearest_le nearest
    have hn' : (2 : ℚ) ^ 52 ≤ n' := by
      exact_mod_cast (grid'.le_nearest nearest').resolve_right (by have := grid.ge; omega)
    calc
      (n : ℚ) * 2 ^ t ≤ 2 ^ 53 * 2 ^ t := mul_le_mul_of_nonneg_right hn (by positivity)
      _ = 2 ^ 52 * 2 ^ ((1 : ℕ) + t) := by rw [zpow_natCast_add]; ring
      _ ≤ n' * 2 ^ t' :=
        mul_le_mul hn' (zpow_le_zpow_right₀ one_le_two (by omega)) (by positivity) (by positivity)
  · have hpos : (0 : ℚ) < 2 ^ t := by positivity
    have hle := nearest.mono nearest' (div_le_div_of_nonneg_right hxy hpos.le)
    exact mul_le_mul_of_nonneg_right (by exact_mod_cast hle) hpos.le
  · exact absurd hxy (not_le.2 (grid'.lt_of_lt grid hlt))

end Rounds

/-! ## The interval around a double -/

/-- The numbers around `m` that round to it. -/
structure IsAround (m : ℕ) (narrow : Bool) (y : ℚ) : Prop where
  lower : (4 * m : ℚ) - (if narrow then 1 else 2) ≤ 4 * y
  upper : 4 * y ≤ 4 * m + 2
  strict : m % 2 = 1 → (4 * m : ℚ) - (if narrow then 1 else 2) < 4 * y ∧ 4 * y < 4 * m + 2

namespace IsAround

variable {m : ℕ} {narrow : Bool} {y : ℚ}

theorem of_lt (hlower : (4 * m : ℚ) - (if narrow then 1 else 2) < 4 * y)
    (hupper : 4 * y < 4 * m + 2) : IsAround m narrow y :=
  ⟨hlower.le, hupper.le, fun _ ↦ ⟨hlower, hupper⟩⟩

theorem self (m : ℕ) (narrow : Bool) : IsAround m narrow m := by
  have hwidth : (0 : ℚ) < if narrow then 1 else 2 := by split <;> norm_num
  exact .of_lt (by linarith) (by linarith)

theorem lt (h : IsAround m narrow y) (hm : m < 2 ^ 53) : y < 2 ^ 53 := by
  have hm' : (m : ℚ) + 1 ≤ 2 ^ 53 := by exact_mod_cast hm
  linarith [h.upper]

theorem isNearest (h : IsAround m narrow y) : IsNearest m y := by
  have hwidth : (if narrow then 1 else 2 : ℚ) ≤ 2 := by split <;> norm_num
  refine ⟨by linarith [h.lower], by linarith [h.upper], fun htie ↦ ?_⟩
  by_contra hodd
  obtain ⟨hlower, hupper⟩ := h.strict (Nat.mod_two_ne_zero.1 hodd)
  rcases htie with htie | htie <;> linarith

/-- Below a power of two the mantissa is nearest on the finer grid as well. -/
theorem isNearest_two_mul (h : IsAround m true y) (hlt : y < m) : IsNearest (2 * m) (2 * y) := by
  have hlower := h.lower
  rw [if_pos rfl] at hlower
  refine ⟨?_, ?_, fun _ ↦ Nat.mul_mod_right 2 m⟩ <;> push_cast <;> linarith

end IsAround

theorem onGrid_of_lt (s : Sign) {n : ℕ} (t : ℤ) (h : 0 < n) (hn : n < 2 ^ 53) :
    onGrid s n t = .finite s n t h := by
  rw [onGrid, dif_neg h.ne', if_neg hn.ne]

/-- A number just below a power of two is rounded on the finer grid, and up to the power. -/
theorem Rounds.eq_two_pow {s : Sign} {x : ℚ} {u : UnpackedFloat} {t : ℤ} (hu : Rounds s x u)
    (ht : -1074 ≤ t) (hx : IsAround (2 ^ 52) true (x / 2 ^ (t + 1)))
    (hlt : x / 2 ^ (t + 1) < 2 ^ 52) :
    u = .finite s (2 ^ 52) (t + 1) (Nat.two_pow_pos 52) := by
  obtain @⟨n, t', grid, nearest⟩ := hu
  have hpos : (0 : ℚ) < 2 ^ t := by positivity
  have hdouble : 2 * (x / 2 ^ (t + 1)) = x / 2 ^ t := by
    rw [zpow_add_one₀ two_ne_zero, ← mul_div_assoc, mul_comm (2 : ℚ) x,
      mul_div_mul_right _ _ two_ne_zero]
  have hnearest := hx.isNearest_two_mul (by exact_mod_cast hlt)
  rw [hdouble] at hnearest
  have hgrid : IsGrid t x := by
    have hlower := hx.lower
    rw [if_pos rfl] at hlower
    push_cast at hlower
    refine ⟨ht, ?_, .inl ?_⟩
    · rw [← div_lt_iff₀ hpos, ← hdouble]
      linarith
    · rw [← le_div_iff₀ hpos, ← hdouble]
      linarith
  obtain rfl := grid.unique hgrid
  obtain rfl := nearest.unique hnearest
  rfl

/-- A number in the interval around a double rounds to it. -/
theorem Rounds.eq_finite {s : Sign} {x : ℚ} {u : UnpackedFloat} {m : ℕ} {e : ℤ} (hu : Rounds s x u)
    (h : 0 < m) (hc : Canonical m e) (hx : IsAround m (m == 2 ^ 52 && e != -1074) (x / 2 ^ e)) :
    u = .finite s m e h := by
  have hpos : (0 : ℚ) < 2 ^ e := by positivity
  have hge := hc.exponent_ge
  by_cases hnormal : 2 ^ 52 ≤ x / 2 ^ e ∨ e = -1074
  · obtain @⟨n, t, grid, nearest⟩ := hu
    obtain rfl := grid.unique ⟨hge, (div_lt_iff₀ hpos).1 (hx.lt hc.mantissa_lt),
      hnormal.imp_left (le_div_iff₀ hpos).1⟩
    obtain rfl := nearest.unique hx.isNearest
    exact onGrid_of_lt s t h hc.mantissa_lt
  · obtain ⟨hlt, he⟩ := not_or.1 hnormal
    -- A number below all mantissas of 53 bits can only be near the least of them.
    have hm : m ≤ 2 ^ 52 := hx.isNearest.le_of_le (by exact_mod_cast (not_le.1 hlt).le)
    obtain rfl : m = 2 ^ 52 := hm.antisymm (hc.normal.resolve_right he)
    obtain ⟨t, rfl⟩ : ∃ t, e = t + 1 := ⟨e - 1, (sub_add_cancel e 1).symm⟩
    rw [beq_self_eq_true, Bool.true_and, bne_iff_ne.2 he] at hx
    exact hu.eq_two_pow (by omega) hx (not_le.1 hlt)

end Number

end SymbolicDerivatives
