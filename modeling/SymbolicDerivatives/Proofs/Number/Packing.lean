import SymbolicDerivatives.Number.Exact
import Mathlib

/-!
# Doubles and their bits

The operations on doubles work on unpacked ones, a sign with a mantissa and an exponent, and pack
the result into bits. `Double.ofFloat` reads the same from the bits by arithmetic on natural
numbers. Both views agree, and packing loses nothing of a mantissa that fits its exponent.
-/

namespace SymbolicDerivatives

open Float.Model (Format UnpackedFloat)
open Float.Model.UnpackedFloat

/-! ## From bits -/

section Bits

variable (b : BitVec Format.binary64.numBits)

theorem toNat_unpackMantissa : (unpackMantissa b).toNat = b.toNat % 2 ^ 52 := by
  simp [unpackMantissa]

theorem toNat_unpackExponent : (unpackExponent b).toNat = b.toNat / 2 ^ 52 % 2 ^ 11 := by
  simp [unpackExponent, Nat.shiftRight_eq_div_pow]

theorem toNat_unpackSign : (unpackSign b).toNat = b.toNat / 2 ^ 63 := by
  have hlt : b.toNat < 2 ^ 64 := b.isLt
  have hdiv : b.toNat / 2 ^ 63 < 2 := by omega
  rw [← Nat.mod_eq_of_lt hdiv]
  simp [unpackSign, Nat.shiftRight_eq_div_pow]

theorem unpackMantissa_eq_zero_iff : unpackMantissa b = 0#52 ↔ b.toNat % 2 ^ 52 = 0 := by
  rw [← BitVec.toNat_inj, toNat_unpackMantissa]
  rfl

theorem unpackExponent_eq_zero_iff : unpackExponent b = 0#11 ↔ b.toNat / 2 ^ 52 % 2 ^ 11 = 0 := by
  rw [← BitVec.toNat_inj, toNat_unpackExponent]
  rfl

theorem unpackExponent_eq_ones_iff :
    unpackExponent b = -1#11 ↔ b.toNat / 2 ^ 52 % 2 ^ 11 = 2047 := by
  rw [← BitVec.toNat_inj, toNat_unpackExponent]
  rfl

theorem toNat_one_append (v : BitVec 52) : (1#1 ++ v).toNat = v.toNat + 2 ^ 52 := by
  rw [BitVec.toNat_append, ← Nat.shiftLeft_add_eq_or_of_lt v.isLt, Nat.shiftLeft_eq, add_comm]
  rfl

end Bits

/-- The double with a sign, a mantissa and an exponent. -/
def Binary.ofParts (s : Sign) (m : ℕ) (e : ℤ) : Binary :=
  ⟨s == .negative, m, e, m == 2 ^ 52 && e != -1074⟩

namespace Double

/-- What an unpacked double says. -/
def ofUnpacked : UnpackedFloat → Double
  | .notANumber => .nan
  | .infinity s => .infinite (s == .negative)
  | .zero s => .finite ⟨s == .negative, 0, -1074, false⟩
  | .finite s m e _ => .finite (.ofParts s m e)

theorem ofBitVec_beq_negative (v : BitVec 1) :
    (Sign.ofBitVec v == .negative) = (v.toNat == 1) := by
  revert v
  decide

theorem ofFloat_eq_of_bits {x : Float} {b : BitVec Format.binary64.numBits}
    (hb : x.toModel.toBits.toBitVec = b) : ofFloat x = ofUnpacked (unpack .binary64 b) := by
  have hbits : x.toBits.toNat = b.toNat := congrArg BitVec.toNat hb
  have hones := unpackExponent_eq_ones_iff b
  have hzero := unpackExponent_eq_zero_iff b
  have hfraction := unpackMantissa_eq_zero_iff b
  have hbias : (Format.binary64.exponentBias : ℤ) = 1023 := by decide
  rw [ofFloat, hbits]
  simp only [unpack, Nat.pow_eq]
  by_cases h : unpackExponent b = -1#11
  · rw [if_pos h, if_pos (hones.1 h)]
    by_cases hf : unpackMantissa b = 0#52
    · rw [if_pos hf, if_pos (hfraction.1 hf), ofUnpacked, ofBitVec_beq_negative, toNat_unpackSign]
    · rw [if_neg hf, if_neg (mt hfraction.2 hf), ofUnpacked]
  rw [if_neg h, if_neg (mt hones.2 h)]
  by_cases h0 : unpackExponent b = 0#11
  · rw [if_pos h0, if_pos (hzero.1 h0)]
    by_cases hf : unpackMantissa b = 0#52
    · rw [dif_pos hf, hfraction.1 hf, ofUnpacked, ofBitVec_beq_negative, toNat_unpackSign]
    · rw [dif_neg hf, ofUnpacked, Binary.ofParts, ofBitVec_beq_negative, toNat_unpackSign,
        toNat_unpackExponent, hzero.1 h0, hbias, toNat_unpackMantissa]
      have hne : b.toNat % 2 ^ 52 ≠ 2 ^ 52 := (Nat.mod_lt _ (Nat.two_pow_pos 52)).ne
      rw [beq_false_of_ne hne]
      rfl
  · rw [if_neg h0, if_neg (mt hzero.2 h0), ofUnpacked, Binary.ofParts, ofBitVec_beq_negative,
      toNat_unpackSign, toNat_one_append, toNat_unpackMantissa, toNat_unpackExponent, hbias]
    have hexponent : ∀ field : ℕ, (field : ℤ) - (1023 + (52 : ℕ)) = field - 1075 := by omega
    have hmantissa : ∀ fraction : ℕ, (fraction + 2 ^ 52 == 2 ^ 52) = (fraction == 0) := by
      intro fraction
      rw [Bool.eq_iff_iff, beq_iff_eq, beq_iff_eq]
      omega
    have hnarrow : ∀ field : ℕ, ((field : ℤ) - 1075 != -1074) = (field != 1) := by
      intro field
      rw [Bool.eq_iff_iff, bne_iff_ne, bne_iff_ne]
      omega
    rw [hexponent, hmantissa, hnarrow]

/-- The two views of a double agree. -/
theorem ofFloat_eq (x : Float) : ofFloat x = ofUnpacked x.toModel.unpack := ofFloat_eq_of_bits rfl

/-- The bits of a double are known from what they say. -/
theorem ofFloat_inj {x y : Float} (h : ofFloat x = ofFloat y) (hx : ofFloat x ≠ .nan) : x = y := by
  have hbits : x.toBits.toNat = y.toBits.toNat := by
    have hxlt : x.toBits.toNat < 2 ^ 64 := x.toBits.toNat_lt
    have hylt : y.toBits.toNat < 2 ^ 64 := y.toBits.toNat_lt
    rw [ofFloat] at hx h
    rw [ofFloat] at h
    generalize x.toBits.toNat = a at *
    generalize y.toBits.toNat = b at *
    have hsign : (a / 2 ^ 63 == 1) = (b / 2 ^ 63 == 1) → a / 2 ^ 63 = b / 2 ^ 63 := by
      rw [Bool.eq_iff_iff, beq_iff_eq, beq_iff_eq]
      omega
    simp only [Nat.pow_eq] at h hx
    by_cases hones : a / 2 ^ 52 % 2 ^ 11 = 2047 <;> by_cases hones' : b / 2 ^ 52 % 2 ^ 11 = 2047
    · by_cases hzero : a % 2 ^ 52 = 0
      · rw [if_pos hones, if_pos hzero, if_pos hones'] at h
        split at h
        · have := hsign (infinite.inj h)
          omega
        · cases h
      · rw [if_pos hones, if_neg hzero] at hx
        exact absurd rfl hx
    · rw [if_pos hones, if_neg hones'] at h
      split at h <;> split at h <;> simp only [reduceCtorEq] at h
    · rw [if_neg hones, if_pos hones'] at h
      split at h <;> split at h <;> simp only [reduceCtorEq] at h
    · rw [if_neg hones, if_neg hones'] at h
      split at h <;> split at h <;> rw [finite.injEq, Binary.mk.injEq] at h <;>
        obtain ⟨hs, hm, he, -⟩ := h <;> have := hsign hs <;> omega
  obtain ⟨⟨a, ha⟩⟩ := x
  obtain ⟨⟨b, hb⟩⟩ := y
  obtain rfl : a = b := UInt64.toNat_inj.1 hbits
  rfl

/-- Of the bits that say not-a-number, only one choice is a double. -/
theorem eq_packedNaN {b : BitVec Format.binary64.numBits} (hvalid : Format.binary64.Valid b)
    (h : unpack .binary64 b = .notANumber) : b = packedNaN .binary64 := by
  simp only [unpack] at h
  split at h
  · next hones =>
    split at h
    · cases h
    · next hfraction => exact hvalid.eq_packedNaN hones hfraction
  · split at h
    · split at h <;> cases h
    · cases h

/-- Unpacking loses nothing of a double. -/
theorem eq_of_unpack_eq {x y : Float} (h : x.toModel.unpack = y.toModel.unpack) : x = y := by
  by_cases hx : x.toModel.unpack = .notANumber
  · have hy : y.toModel.unpack = .notANumber := h ▸ hx
    obtain ⟨⟨a, ha⟩⟩ := x
    obtain ⟨⟨b, hb⟩⟩ := y
    obtain rfl : a = b :=
      UInt64.toBitVec_inj.1 ((eq_packedNaN ha hx).trans (eq_packedNaN hb hy).symm)
    rfl
  · refine ofFloat_inj (by rw [ofFloat_eq, ofFloat_eq, h]) ?_
    rw [ofFloat_eq]
    cases hu : x.toModel.unpack with
    | notANumber => exact absurd hu hx
    | _ => exact Double.noConfusion

end Double

/-! ## To bits -/

/-- The mantissas and exponents of doubles, up to the largest exponent: 53 bits with a leading one,
or fewer with the least exponent. -/
structure Canonical (m : ℕ) (e : ℤ) : Prop where
  mantissa_lt : m < 2 ^ 53
  exponent_ge : -1074 ≤ e
  normal : 2 ^ 52 ≤ m ∨ e = -1074

theorem ofBitVec_toBitVec (s : Sign) : Sign.ofBitVec s.toBitVec = s := by
  cases s <;> rfl

theorem unpackSign_packComponents {format : Format} {s : Sign} {e : BitVec format.exponentBits}
    {m : BitVec format.mantissaBitsWithoutImplicit} :
    unpackSign (packComponents format s e m) = s.toBitVec := by
  ext i hi
  obtain rfl : i = 0 := Nat.lt_one_iff.1 hi
  simp [unpackSign, packComponents, BitVec.getLsbD_append, BitVec.getElem_append]

theorem unpack_pack_zero (s : Sign) : unpack .binary64 (pack .binary64 (.zero s)) = .zero s := by
  cases s <;> rfl

section Unpack

variable {s : Sign} {field : BitVec 11} {fraction : BitVec 52} {m : ℕ} {e : ℤ}

/-- A double with a leading one that is left out. -/
theorem unpack_packComponents_normal (hzero : field ≠ 0#11) (hones : field ≠ -1#11) (h : 0 < m)
    (hm : fraction.toNat + 2 ^ 52 = m) (he : (field.toNat : ℤ) - 1075 = e) :
    unpack .binary64 (packComponents .binary64 s field fraction) = .finite s m e h := by
  have hbias : (Format.binary64.exponentBias : ℤ) = 1023 := by decide
  simp only [unpack, unpackExponent_packComponents, unpackMantissa_packComponents,
    unpackSign_packComponents]
  rw [if_neg hones, if_neg hzero, ofBitVec_toBitVec, UnpackedFloat.finite.injEq, toNat_one_append,
    hbias]
  exact ⟨rfl, hm, by omega⟩

/-- A double with the least exponent and no leading one. -/
theorem unpack_packComponents_subnormal (h : 0 < m) (hm : fraction.toNat = m) :
    unpack .binary64 (packComponents .binary64 s 0#11 fraction) = .finite s m (-1074) h := by
  have hbias : (Format.binary64.exponentBias : ℤ) = 1023 := by decide
  have hne : fraction ≠ 0#52 := by
    rintro rfl
    exact h.ne hm
  simp only [unpack, unpackExponent_packComponents, unpackMantissa_packComponents,
    unpackSign_packComponents]
  rw [if_neg (by decide), if_pos trivial, dif_neg hne, ofBitVec_toBitVec,
    UnpackedFloat.finite.injEq, hbias]
  exact ⟨rfl, hm, rfl⟩

end Unpack

/-- Packing a double that is not too large loses nothing. -/
theorem unpack_pack_finite {s : Sign} {m : ℕ} {e : ℤ} (h : 0 < m) (hc : Canonical m e)
    (he : e ≤ 971) :
    unpack .binary64 (pack .binary64 (.finite s m e h)) = .finite s m e h := by
  have hbias : (Format.binary64.exponentBias : ℤ) = 1023 := by decide
  have hbits : Format.binary64.mantissaBits = 53 := by decide
  have hlower := hc.exponent_ge
  have hlt := hc.mantissa_lt
  simp only [pack, hbias, hbits]
  rw [if_neg (by omega)]
  by_cases hnormal : 2 ^ 52 ≤ m
  · have hlog : m.log2 = 52 := (Nat.log2_eq_iff h.ne').2 ⟨hnormal, hlt⟩
    rw [if_pos (by omega)]
    obtain ⟨biased, hbiased⟩ : ∃ k : ℕ, (k : ℤ) = e + 1023 + (52 : ℕ) :=
      ⟨(e + 1023 + (52 : ℕ)).toNat, Int.toNat_of_nonneg (by omega)⟩
    have hfield : (BitVec.ofNat 11 biased).toNat = biased := by
      rw [BitVec.toNat_ofNat, Nat.mod_eq_of_lt (by omega)]
    rw [← hbiased, Int.toNat_natCast]
    refine unpack_packComponents_normal ?_ ?_ h ?_ ?_
    · rintro hzero
      rw [hzero, BitVec.toNat_zero] at hfield
      omega
    · rintro hones
      rw [hones] at hfield
      have : (-1#11).toNat = 2047 := rfl
      omega
    · rw [BitVec.toNat_ofNat]
      omega
    · omega
  · have hlog : m.log2 < 52 := (Nat.log2_lt h.ne').2 (by omega)
    rw [if_neg (by omega)]
    obtain rfl := hc.normal.resolve_left hnormal
    refine unpack_packComponents_subnormal h ?_
    rw [BitVec.toNat_ofNat, Nat.mod_eq_of_lt (by omega)]

/-! ## All doubles -/

namespace Double

theorem canonical_of_ofFloat_eq {x : Float} {b : Binary} (h : ofFloat x = .finite b) :
    Canonical b.mantissa b.exponent ∧ b.exponent ≤ 971 := by
  rw [ofFloat] at h
  simp only [Nat.pow_eq] at h
  split at h
  · split at h <;> cases h
  · split at h
    · cases h
      refine ⟨⟨?_, ?_, .inr rfl⟩, ?_⟩ <;> dsimp only <;> omega
    · cases h
      refine ⟨⟨?_, ?_, .inl ?_⟩, ?_⟩ <;> dsimp only <;> omega

theorem canonical_of_unpack_eq {x : Float} {s : Sign} {m : ℕ} {e : ℤ} {h : 0 < m}
    (hx : x.toModel.unpack = .finite s m e h) : Canonical m e ∧ e ≤ 971 := by
  have hdouble := ofFloat_eq x
  rw [hx] at hdouble
  exact canonical_of_ofFloat_eq hdouble

end Double

end SymbolicDerivatives
