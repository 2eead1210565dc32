import SymbolicDerivatives.Number.Arithmetic
import SymbolicDerivatives.Number.Hundredths
import SymbolicDerivatives.Proofs.Number.Bounded
import SymbolicDerivatives.Proofs.Number.Double

/-!
# Zeros of doubles

There are two zeros, and `x == 0` holds of both. Sums and differences of zeros are zeros, and so is
the product of a zero and a finite double. Both zeros are written `0.00` as a result.
-/

namespace SymbolicDerivatives

open Float.Model (Format UnpackedFloat)
open Float.Model.UnpackedFloat

namespace Number

variable {x y : Float}

theorem beq_zero_iff : (x == 0) = true ↔ ∃ s, x.toModel.unpack = .zero s := by
  have hzero : (0 : Float).toModel.unpack = .zero .positive := rfl
  rw [beq_iff, hzero]
  constructor
  · rintro (⟨s, t, hs, -⟩ | ⟨hs, -⟩)
    · exact ⟨s, hs⟩
    · exact ⟨_, hs⟩
  · rintro ⟨s, hs⟩
    exact .inl ⟨s, _, hs, rfl⟩

theorem pack_zero_beq_zero (s : Sign) : (Float.ofModel (.pack (.zero s)) == 0) = true :=
  beq_zero_iff.2 ⟨s, unpack_pack_zero s⟩

theorem add_beq_zero (hx : (x == 0) = true) (hy : (y == 0) = true) : (x + y == 0) = true := by
  obtain ⟨s, hs⟩ := beq_zero_iff.1 hx
  obtain ⟨t, ht⟩ := beq_zero_iff.1 hy
  have hdef : x + y = .ofModel (.pack (.add .binary64 x.toModel.unpack y.toModel.unpack)) := rfl
  rw [hdef, hs, ht]
  cases s <;> cases t <;> exact pack_zero_beq_zero _

theorem sub_beq_zero (hx : (x == 0) = true) (hy : (y == 0) = true) : (x - y == 0) = true := by
  obtain ⟨s, hs⟩ := beq_zero_iff.1 hx
  obtain ⟨t, ht⟩ := beq_zero_iff.1 hy
  have hdef : x - y = .ofModel (.pack (.sub .binary64 x.toModel.unpack y.toModel.unpack)) := rfl
  rw [hdef, hs, ht]
  cases s <;> cases t <;> exact pack_zero_beq_zero _

theorem zero_mul_beq_zero (hx : (x == 0) = true) (hy : y.isFinite = true) :
    (x * y == 0) = true := by
  obtain ⟨s, hs⟩ := beq_zero_iff.1 hx
  have hc := isCanonical_of_isFinite hy
  have hdef : x * y = .ofModel (.pack (.mul .binary64 x.toModel.unpack y.toModel.unpack)) := rfl
  rw [hdef, hs]
  generalize y.toModel.unpack = u at hc
  cases hc with
  | zero t => exact pack_zero_beq_zero (s * t)
  | finite t _ _ => exact pack_zero_beq_zero (s * t)

theorem sum_beq_zero {values : List Float} (h : ∀ z ∈ values, (z == 0) = true) :
    (sum values == 0) = true :=
  List.foldlRecOn values (· + ·) (motive := fun z ↦ (z == 0) = true) (by decide +kernel)
    fun _ hz y hy ↦ add_beq_zero hz (h y hy)

/-- A product with a zero in front is a zero, since no partial product overflows. -/
theorem product_beq_zero {z : Float} (hz : (z == 0) = true) {values : List Float}
    (h : ∀ v ∈ values, v.isFinite = true) : (product (z :: values) == 0) = true := by
  have hone : (1 * z == 0) = true := by
    obtain ⟨s, hs⟩ := beq_zero_iff.1 hz
    have hdef : 1 * z = .ofModel
      (.pack (.mul .binary64 (1 : Float).toModel.unpack z.toModel.unpack)) := rfl
    rw [hdef, hs]
    exact pack_zero_beq_zero _
  exact List.foldlRecOn values (· * ·) (motive := fun z ↦ (z == 0) = true) hone
    fun _ hz v hv ↦ zero_mul_beq_zero hz (h v hv)

end Number

open Number in
theorem resultText_of_beq_zero {x : Float} (h : (x == 0) = true) : resultText x = "0.00" := by
  obtain ⟨s, hs⟩ := beq_zero_iff.1 h
  have hexact : ∃ n d, Roundable.exact x = .finite (s == .negative) n d := by
    change ∃ n d, (Double.ofFloat x).exact = .finite (s == .negative) n d
    rw [Double.ofFloat_eq, hs]
    exact ⟨_, _, rfl⟩
  obtain ⟨n, d, hexact⟩ := hexact
  have habs : Roundable.abs x = 0 := by
    have hdef : Float.abs x = .ofModel (.pack (.abs x.toModel.unpack)) := rfl
    rw [hs] at hdef
    exact hdef
  rw [resultText, roundHundredths, hexact, habs]
  dsimp only
  rw [if_neg (by decide +kernel)]
  cases s <;> decide +kernel

end SymbolicDerivatives
