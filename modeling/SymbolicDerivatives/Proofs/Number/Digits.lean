import SymbolicDerivatives.Number.Literal
import SymbolicDerivatives.Number.Text
import Mathlib.Algebra.Order.Field.Power
import Mathlib.Algebra.Order.Ring.Rat
import Mathlib.Tactic.Positivity

/-!
# Digits and the numbers they write

A literal is a run of digits, or two with a point between them. `Number.Spells` says which number it
writes: the digits as one natural number, scaled down by the places after the point. Natural numbers
and decimals in positional notation are literals of themselves.
-/

namespace SymbolicDerivatives

/-! ## Natural numbers -/

namespace Text

theorem digit?_of_isDigit {c : Char} (h : c.isDigit = true) :
    digit? c = some (c.toNat - '0'.toNat) := by
  have hzeros : zeros = '0'.toNat :: zeros.tail := rfl
  have hrange : '0'.toNat ≤ c.toNat ∧ c.toNat < '0'.toNat + 10 := by
    obtain ⟨hlower, hupper⟩ := Char.isDigit_iff_toNat.1 h
    have hzero : '0'.toNat = 48 := rfl
    have hnine : '9'.toNat = 57 := rfl
    omega
  rw [digit?, hzeros, List.find?_cons_of_pos (by simpa using hrange), Option.map_some]

theorem isDigit_of_isDigit {c : Char} (h : c.isDigit = true) : isDigit c = true := by
  rw [isDigit, digit?_of_isDigit h]
  rfl

theorem natOfDigits_eq_ofDigitChars {cs : List Char} (h : ∀ c ∈ cs, c.isDigit = true) :
    natOfDigits cs = Nat.ofDigitChars 10 cs 0 := by
  have hmap : cs.filterMap digit? = cs.map fun c ↦ c.toNat - '0'.toNat := by
    rw [← List.filterMap_eq_map]
    exact List.filterMap_congr fun c hc ↦ digit?_of_isDigit (h c hc)
  rw [natOfDigits, hmap, List.foldl_map, Nat.ofDigitChars_eq_foldl]

end Text

namespace Number

theorem isDigit_of_mem_toDigits {n : ℕ} {c : Char} (h : c ∈ Nat.toDigits 10 n) : c.isDigit = true :=
  Nat.isDigit_of_mem_toDigits (by decide) (by decide) h

theorem digitCount_pos (n : ℕ) : 0 < digitCount n := Nat.length_toDigits_pos

theorem lt_pow_digitCount (n : ℕ) : n < 10 ^ digitCount n :=
  (Nat.length_toDigits_le_iff (by decide) (digitCount_pos n)).1 le_rfl

theorem pow_digitCount_le {n : ℕ} (h : 0 < n) : 10 ^ (digitCount n - 1) ≤ n := by
  by_contra hlt
  obtain ⟨k, hk⟩ : ∃ k, digitCount n = k + 1 :=
    ⟨digitCount n - 1, (Nat.sub_add_cancel (digitCount_pos n)).symm⟩
  rw [hk, Nat.add_sub_cancel] at hlt
  rcases k.eq_zero_or_pos with rfl | hpos
  · exact hlt h
  · have := (Nat.length_toDigits_le_iff (b := 10) (by decide) hpos).2 (not_le.1 hlt)
    rw [digitCount] at hk
    omega

/-! ## Literals -/

/-- A literal and the number that it writes. -/
inductive Spells : List Char → ℚ → Prop
  | whole {digits : List Char} (ne_nil : digits ≠ []) (all : ∀ c ∈ digits, c.isDigit = true) :
      Spells digits (Nat.ofDigitChars 10 digits 0)
  | pointed {whole fraction : List Char} (ne_nil : whole ≠ [])
      (all : ∀ c ∈ whole ++ fraction, c.isDigit = true) :
      Spells (whole ++ '.' :: fraction)
        (Nat.ofDigitChars 10 (whole ++ fraction) 0 / 10 ^ fraction.length)

theorem Spells.mem_cases {cs : List Char} {q : ℚ} (h : Spells cs q) :
    ∀ c ∈ cs, c.isDigit = true ∨ c = '.' := by
  intro c hc
  obtain ⟨-, all⟩ | ⟨-, all⟩ := h
  · exact .inl (all c hc)
  · rw [List.mem_append, List.mem_cons] at hc
    rw [List.forall_mem_append] at all
    rcases hc with hc | hc | hc
    · exact .inl (all.1 c hc)
    · exact .inr hc
    · exact .inl (all.2 c hc)

theorem spells_toDigits (n : ℕ) : Spells (Nat.toDigits 10 n) n := by
  have h := Spells.whole Nat.toDigits_ne_nil (fun c ↦ isDigit_of_mem_toDigits (n := n))
  rwa [Nat.ofDigitChars_ten_toDigits] at h

theorem isDigit_of_mem_zeros {k : ℕ} {c : Char} (h : c ∈ List.replicate k '0') :
    c.isDigit = true := by
  rw [List.eq_of_mem_replicate h]
  rfl

theorem isDigit_of_mem_padded (k n : ℕ) :
    ∀ c ∈ List.replicate k '0' ++ Nat.toDigits 10 n, c.isDigit = true :=
  List.forall_mem_append.2 ⟨fun _ ↦ isDigit_of_mem_zeros, fun _ ↦ isDigit_of_mem_toDigits⟩

theorem ofDigitChars_padded (k n : ℕ) :
    Nat.ofDigitChars 10 (List.replicate k '0' ++ Nat.toDigits 10 n) 0 = n := by
  rw [Nat.ofDigitChars_append, Nat.ofDigitChars_replicate_zero, mul_zero,
    Nat.ofDigitChars_ten_toDigits]

/-- A decimal without places, with a zero for one. -/
theorem spells_positional_natCast (n d : ℕ) :
    Spells (positional (Nat.toDigits 10 n) d) (n * 10 ^ (d : ℤ)) := by
  have hall : ∀ c ∈ Nat.toDigits 10 n ++ List.replicate d '0' ++ ['0'], c.isDigit = true := by
    simp only [List.forall_mem_append, List.forall_mem_singleton]
    exact ⟨⟨fun _ ↦ isDigit_of_mem_toDigits, fun _ ↦ isDigit_of_mem_zeros⟩, rfl⟩
  have hspells := Spells.pointed (List.append_ne_nil_of_left_ne_nil Nat.toDigits_ne_nil _) hall
  have hvalue : Nat.ofDigitChars 10 (Nat.toDigits 10 n ++ List.replicate d '0' ++ ['0']) 0 =
      10 * (10 ^ d * n) := by
    rw [Nat.ofDigitChars_append, Nat.ofDigitChars_append, Nat.ofDigitChars_ten_toDigits,
      Nat.ofDigitChars_replicate_zero]
    rfl
  rw [hvalue, List.length_singleton, pow_one, Nat.cast_mul, Nat.cast_ofNat,
    mul_div_cancel_left₀ _ (by decide), mul_comm (10 ^ d)] at hspells
  rw [positional, if_pos (Int.natCast_nonneg d), Int.toNat_natCast, zpow_natCast]
  push_cast at hspells
  exact hspells

/-- A decimal with places, after as many zeros as it takes to have a digit before the point. -/
theorem spells_positional_neg (n : ℕ) {d : ℕ} (hd : 0 < d) :
    Spells (positional (Nat.toDigits 10 n) (-d)) (n * 10 ^ (-d : ℤ)) := by
  rw [positional, if_neg (by omega), neg_neg, Int.toNat_natCast, pointed]
  generalize hpadded : List.replicate (d + 1 - (Nat.toDigits 10 n).length) '0' ++
    Nat.toDigits 10 n = padded
  have hall : ∀ c ∈ padded, c.isDigit = true := hpadded ▸ isDigit_of_mem_padded _ n
  have hlength : d + 1 ≤ padded.length := by
    rw [← hpadded, List.length_append, List.length_replicate]
    omega
  have hvalue : Nat.ofDigitChars 10 padded 0 = n := hpadded ▸ ofDigitChars_padded _ n
  have hne : padded.take (padded.length - d) ≠ [] := by
    rw [← List.length_pos_iff, List.length_take]
    omega
  have hspells : Spells
      (padded.take (padded.length - d) ++ '.' :: padded.drop (padded.length - d)) _ :=
    .pointed hne (by rwa [List.take_append_drop])
  rw [List.take_append_drop, hvalue, List.length_drop,
    Nat.sub_sub_self (Nat.le_of_succ_le hlength)] at hspells
  rwa [zpow_neg, zpow_natCast, ← div_eq_mul_inv]

theorem spells_positional (n : ℕ) (k : ℤ) :
    Spells (positional (Nat.toDigits 10 n) k) (n * 10 ^ k) := by
  rcases le_or_gt 0 k with hk | hk
  · obtain ⟨d, rfl⟩ := Int.eq_ofNat_of_zero_le hk
    exact spells_positional_natCast n d
  · obtain ⟨d, rfl⟩ := Int.exists_eq_neg_ofNat hk.le
    exact spells_positional_neg n (by omega)

end Number

end SymbolicDerivatives
