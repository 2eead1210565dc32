import SymbolicDerivatives.Proofs.Number.Reading

/-!
# The text of a double says which double it is

A literal is read as the double that it is the text of, so it is the text of one double only, up to
the sign of a zero. A text with an exponent is never read. It gives away its digits and its exponent
all the same: they are the shortest decimal of the double, and no other double is nearest to that.
-/

namespace SymbolicDerivatives

open Float.Model (UnpackedFloat)
open Float.Model.UnpackedFloat

/-! ## The number of a double -/

/-- The number that a machine number stands for, and zero if there is none. -/
def Exact.toRat : Exact → ℚ
  | finite negative n d => if negative then -(n / d) else n / d
  | _ => 0

namespace Number

/-- The number that a double stands for, and zero if there is none. -/
def toRat (x : Float) : ℚ := (Double.ofFloat x).exact.toRat

section Unpacked

variable {x y : Float} {s : Sign} {m : ℕ} {e : ℤ} {hm : 0 < m}

theorem toRat_of_zero (hx : x.toModel.unpack = .zero s) : toRat x = 0 := by
  rw [toRat, Double.ofFloat_eq, hx, Double.ofUnpacked, Double.exact, Exact.toRat, zero_mul,
    Nat.cast_zero, zero_div, neg_zero, ite_self]

theorem toRat_of_finite (hx : x.toModel.unpack = .finite s m e hm) :
    toRat x = if s == .negative then -((m : ℚ) * 2 ^ e) else m * 2 ^ e := by
  rw [toRat, ofFloat_of_unpack_eq hx, Double.exact, Exact.toRat,
    Binary.cast_mul_factor_div_divisor]
  rfl

theorem toRat_neg_one : toRat (-1) = -1 := by decide +kernel

theorem toRat_eq_of_beq (h : (x == y) = true) : toRat x = toRat y := by
  rcases beq_iff.1 h with ⟨s, t, hx, hy⟩ | ⟨heq, -⟩
  · rw [toRat_of_zero hx, toRat_of_zero hy]
  · rw [toRat, toRat, Double.ofFloat_eq, Double.ofFloat_eq, heq]

/-! ## Signs -/

theorem lt_iff : x < y ↔ x.toModel.unpack.compare y.toModel.unpack = some .lt :=
  decide_eq_true_iff.trans beq_iff_eq

theorem not_lt_zero_of_zero (hx : x.toModel.unpack = .zero s) : ¬x < 0 := by
  rw [lt_iff, hx]
  exact fun h ↦ by cases h

theorem lt_zero_iff_of_finite (hx : x.toModel.unpack = .finite s m e hm) :
    x < 0 ↔ s = .negative := by
  have hzero : (0 : Float).toModel.unpack = .zero .positive := rfl
  rw [lt_iff, hx, hzero]
  cases s <;> simp [UnpackedFloat.compare]

theorem unpack_neg (hx : x.toModel.unpack = .finite s m e hm) :
    (-x).toModel.unpack = .finite (-s) m e hm := by
  obtain ⟨hc, he⟩ := Double.canonical_of_unpack_eq hx
  have hdef : -x = .ofModel (.pack (.neg x.toModel.unpack)) := rfl
  rw [hx] at hdef
  exact hdef ▸ unpack_ofModel_pack hm hc he

end Unpacked

/-! ## Numerals -/

/-- A text without a sign that a double can have. -/
def Numeral (cs : List Char) : Prop := (∃ q, Spells cs q) ∨ Exponential cs

theorem Spells.head?_isDigit {cs : List Char} {q : ℚ} (h : Spells cs q) :
    ∃ c ∈ cs.head?, c.isDigit = true := by
  rcases h with ⟨hne, hall⟩ | ⟨hne, hall⟩
  · obtain ⟨c, cs, rfl⟩ := List.exists_cons_of_ne_nil hne
    exact ⟨c, rfl, hall c List.mem_cons_self⟩
  · obtain ⟨c, cs, rfl⟩ := List.exists_cons_of_ne_nil hne
    exact ⟨c, rfl, hall c List.mem_cons_self⟩

theorem Numeral.head?_isDigit {cs : List Char} (h : Numeral cs) :
    ∃ c ∈ cs.head?, c.isDigit = true := by
  rcases h with ⟨q, hspells⟩ | ⟨hmantissa, -, -⟩
  · exact hspells.head?_isDigit
  · obtain ⟨c, hc, hdigit⟩ := hmantissa.head?_isDigit
    exact ⟨c, by rw [List.head?_append, hc]; rfl, hdigit⟩

theorem Numeral.mem_cases {cs : List Char} (h : Numeral cs) :
    ∀ c ∈ cs, c.isDigit = true ∨ c ∈ ['.', 'e', '+', '-'] := by
  have hliteral {ds : List Char} {q : ℚ} (hds : Spells ds q) :
      ∀ c ∈ ds, c.isDigit = true ∨ c ∈ ['.', 'e', '+', '-'] := by
    intro c hc
    rcases hds.mem_cases c hc with hdigit | rfl
    · exact .inl hdigit
    · exact .inr List.mem_cons_self
  obtain ⟨q, hspells⟩ | ⟨hmantissa, hsign, hmagnitude⟩ := h
  · exact hliteral hspells
  · have hsign' := List.mem_cons_of_mem '.' (List.mem_cons_of_mem 'e' hsign)
    exact List.forall_mem_append.2 ⟨hliteral hmantissa, List.forall_mem_cons.2 ⟨.inr (by decide),
      List.forall_mem_cons.2 ⟨.inr hsign', hliteral hmagnitude⟩⟩⟩

/-- The sign in front of a numeral is split off again. -/
theorem splitSign_signed {negative : Bool} {cs : List Char} (h : Numeral cs) :
    splitSign (signed negative cs) = (negative, cs) := by
  obtain ⟨c, hc, hdigit⟩ := h.head?_isDigit
  obtain ⟨rest, rfl⟩ := List.head?_eq_some_iff.1 hc
  cases negative with
  | true => rfl
  | false =>
    rw [signed, if_neg Bool.false_ne_true]
    unfold splitSign
    split
    · next heq => cases heq; cases hdigit
    · next heq => cases heq; cases hdigit
    · rfl

/-- The sign of a text and the numeral after it are known from the text. -/
theorem signed_inj {isNegative isNegative' : Bool} {cs cs' : List Char} (hcs : Numeral cs)
    (hcs' : Numeral cs') (h : signed isNegative cs = signed isNegative' cs') :
    isNegative = isNegative' ∧ cs = cs' := by
  have hsplit := congrArg splitSign h
  rw [splitSign_signed hcs, splitSign_signed hcs'] at hsplit
  exact Prod.mk.inj hsplit

theorem numeral_decimalText (d : Decimal) : Numeral (decimalText d) :=
  (decimalText_cases d).imp_left fun h ↦ ⟨_, h⟩

/-! ## Decimals -/

/-- The digits before an exponent are those of the mantissa, with a point among them or not. -/
theorem filter_mantissa (n : ℕ) :
    (if (Nat.toDigits 10 n).length = 1 then Nat.toDigits 10 n
      else pointed (Nat.toDigits 10 n) 1).filter (· != '.') = Nat.toDigits 10 n := by
  have hdigits : ∀ ds : List Char, (∀ c ∈ ds, c ∈ Nat.toDigits 10 n) →
      ds.filter (· != '.') = ds := fun ds hds ↦
    List.filter_eq_self.2 fun c hc ↦ ne_point_of_isDigit (isDigit_of_mem_toDigits (hds c hc))
  split
  · exact hdigits _ fun _ ↦ id
  · rw [pointed, List.filter_append, List.filter_cons_of_neg (by decide),
      hdigits _ fun _ ↦ List.mem_of_mem_take, hdigits _ fun _ ↦ List.mem_of_mem_drop,
      List.take_append_drop]

theorem e_notMem_of_isDigit {cs : List Char} (h : ∀ c ∈ cs, c.isDigit = true) : 'e' ∉ cs :=
  fun hmem ↦ absurd (h _ hmem) (by decide)

theorem scientific_inj {n n' : ℕ} {e e' : ℤ}
    (h : scientific (Nat.toDigits 10 n) e = scientific (Nat.toDigits 10 n') e') :
    n = n' ∧ e = e' := by
  have hmantissa (k : ℕ) : 'e' ∉ if (Nat.toDigits 10 k).length = 1 then Nat.toDigits 10 k
      else pointed (Nat.toDigits 10 k) 1 := by
    intro hmem
    have hfilter : 'e' ∈ Nat.toDigits 10 k := by
      rw [← filter_mantissa k]
      exact List.mem_filter.2 ⟨hmem, by decide⟩
    exact e_notMem_of_isDigit (fun _ ↦ isDigit_of_mem_toDigits) hfilter
  have hexponent (e : ℤ) : 'e' ∉ (if e < 0 then '-' else '+') ::
      (List.replicate (2 - (Nat.toDigits 10 e.natAbs).length) '0' ++
        Nat.toDigits 10 e.natAbs) := by
    rw [List.mem_cons, not_or]
    exact ⟨by split <;> decide, e_notMem_of_isDigit (isDigit_of_mem_padded _ _)⟩
  -- the text has one `e`, which separates the digits from the exponent
  simp only [scientific, List.append_assoc, List.cons_append] at h
  obtain ⟨hdigits, -, htail⟩ :=
    (List.append_cons_inj_of_notMem (hmantissa n) (hexponent e)).1 h
  obtain ⟨hsign, hpadded⟩ := List.cons.inj htail
  constructor
  · rw [← Nat.ofDigitChars_ten_toDigits (n := n), ← filter_mantissa n, hdigits, filter_mantissa,
      Nat.ofDigitChars_ten_toDigits]
  · have hsize : e.natAbs = e'.natAbs := by
      rw [← ofDigitChars_padded _ e.natAbs, hpadded, ofDigitChars_padded]
    have hneg : e < 0 ↔ e' < 0 := by
      by_cases he : e < 0 <;> by_cases he' : e' < 0 <;> simp [he, he'] at hsign ⊢
    omega

theorem decimalText_inj {d d' : Decimal} (hexponent : 'e' ∈ decimalText d)
    (h : decimalText d = decimalText d') : d = d' := by
  have hscientific {d : Decimal} (he : 'e' ∈ decimalText d) : decimalText d = scientific
      (Nat.toDigits 10 d.digits) (d.exponent + (Nat.toDigits 10 d.digits).length - 1) := by
    rw [decimalText] at he ⊢
    split
    · next hplaces =>
      rw [if_pos hplaces] at he
      exact absurd he (spells_positional _ _).e_notMem
    · rfl
  have hexponent' : 'e' ∈ decimalText d' := h ▸ hexponent
  rw [hscientific hexponent, hscientific hexponent'] at h
  obtain ⟨hdigits, hplaces⟩ := scientific_inj h
  obtain ⟨n, k⟩ := d
  obtain ⟨n', k'⟩ := d'
  dsimp only at hdigits hplaces
  subst hdigits
  obtain rfl : k = k' := by omega
  rfl

/-! ## Doubles -/

section Texts

variable {x y : Float}

/-- A text with an exponent is the shortest decimal of a number that is not whole. -/
theorem exists_shortest_of_exponent (hfinite : x.isFinite = true)
    (hexponent : 'e' ∈ (plainText x).toList) :
    ∃ s m e, ∃ hm : 0 < m, x.toModel.unpack = .finite s m e hm ∧
      'e' ∈ decimalText (Binary.ofParts s m e).shortest ∧ (plainText x).toList =
        signed (s == .negative) (decimalText (Binary.ofParts s m e).shortest) := by
  have hc := isCanonical_of_isFinite hfinite
  generalize hx : x.toModel.unpack = u at hc
  obtain s | @⟨s, m, e, hm, hc⟩ := hc
  · rw [toList_plainText_of_zero hx] at hexponent
    exact absurd hexponent (by decide)
  · by_cases hwhole : ∃ n, (Binary.ofParts s m e).whole? = some n
    · obtain ⟨n, hn⟩ := hwhole
      rw [toList_plainText_of_whole hx hn, e_mem_signed_iff] at hexponent
      exact absurd hexponent (spells_toDigits n).e_notMem
    · have hnone : (Binary.ofParts s m e).whole? = none :=
        Option.eq_none_iff_forall_not_mem.2 fun n hn ↦ hwhole ⟨n, hn⟩
      have htext := toList_plainText_of_not_whole hx hnone
      rw [htext, e_mem_signed_iff] at hexponent
      exact ⟨s, m, e, hm, rfl, hexponent, htext⟩

/-- **The text of a finite double says which double it is**, up to the sign of a zero. -/
theorem beq_of_plainText_eq (hx : x.isFinite = true) (hy : y.isFinite = true)
    (h : plainText x = plainText y) : (x == y) = true := by
  by_cases hexponent : 'e' ∈ (plainText x).toList
  · obtain ⟨s, m, e, hm, hux, hdx, htx⟩ := exists_shortest_of_exponent hx hexponent
    obtain ⟨s', m', e', hm', huy, -, hty⟩ := exists_shortest_of_exponent hy (h ▸ hexponent)
    obtain ⟨hsign, htext⟩ := signed_inj (numeral_decimalText _) (numeral_decimalText _)
      (htx.symm.trans ((congrArg String.toList h).trans hty))
    have hshortest := decimalText_inj hdx htext
    have hc := (Double.canonical_of_unpack_eq hux).1
    have hc' := (Double.canonical_of_unpack_eq huy).1
    -- both doubles are nearest to the same decimal
    have hrounds := (isAround_shortest_ofParts s hm hc).rounds hm hc
    rw [hshortest] at hrounds
    cases hrounds.eq_finite hm' hc' (isAround_shortest_ofParts s' hm' hc')
    have hsigns : s = s' := by
      cases s <;> cases s' <;> first | rfl | cases hsign
    rw [beq_iff, hux, huy, hsigns]
    exact .inr ⟨rfl, UnpackedFloat.noConfusion⟩
  · obtain ⟨s, cs, q, htx, hspells, hread⟩ := exists_literal hx hexponent
    obtain ⟨s', cs', q', hty, hspells', hread'⟩ := exists_literal hy (h ▸ hexponent)
    obtain ⟨rfl, rfl⟩ := signed_inj (.inl ⟨q, hspells⟩) (.inl ⟨q', hspells'⟩)
      (htx.symm.trans ((congrArg String.toList h).trans hty))
    exact PartialEquivBEq.trans (PartialEquivBEq.symm hread) hread'

theorem whole?_ofParts (s t : Sign) (m : ℕ) (e : ℤ) :
    (Binary.ofParts s m e).whole? = (Binary.ofParts t m e).whole? := rfl

theorem shortest_ofParts (s t : Sign) (m : ℕ) (e : ℤ) :
    (Binary.ofParts s m e).shortest = (Binary.ofParts t m e).shortest := rfl

/-- The two doubles of one size are written with the same numeral. -/
theorem exists_numeral (m : ℕ) (e : ℤ) (hm : 0 < m) : ∃ cs, Numeral cs ∧ ∀ {x : Float} {s : Sign},
    x.toModel.unpack = .finite s m e hm → (plainText x).toList = signed (s == .negative) cs := by
  by_cases hwhole : ∃ n, (Binary.ofParts .positive m e).whole? = some n
  · obtain ⟨n, hn⟩ := hwhole
    refine ⟨_, .inl ⟨_, spells_toDigits n⟩, fun {x s} hx ↦ ?_⟩
    exact toList_plainText_of_whole hx ((whole?_ofParts s .positive m e).trans hn)
  · have hnone : (Binary.ofParts .positive m e).whole? = none :=
      Option.eq_none_iff_forall_not_mem.2 fun n hn ↦ hwhole ⟨n, hn⟩
    refine ⟨_, numeral_decimalText (Binary.ofParts .positive m e).shortest, fun {x s} hx ↦ ?_⟩
    rw [← shortest_ofParts s .positive]
    exact toList_plainText_of_not_whole hx ((whole?_ofParts s .positive m e).trans hnone)

theorem numeral_of_not_lt_zero (hfinite : x.isFinite = true) (hsign : ¬x < 0) :
    Numeral (plainText x).toList := by
  have hc := isCanonical_of_isFinite hfinite
  generalize hx : x.toModel.unpack = u at hc
  obtain s | @⟨s, m, e, hm, hc⟩ := hc
  · rw [toList_plainText_of_zero hx]
    exact .inl ⟨_, spells_toDigits 0⟩
  · obtain ⟨cs, hcs, htext⟩ := exists_numeral m e hm
    rw [lt_zero_iff_of_finite hx] at hsign
    rw [htext hx, signed, if_neg (by rwa [beq_iff_eq])]
    exact hcs

/-- A negative number is written as its opposite with a minus sign. -/
theorem opposite_of_lt_zero (hfinite : x.isFinite = true) (hsign : x < 0) :
    (plainText x).toList = '-' :: (plainText (-x)).toList ∧ (-x).isFinite = true ∧ ¬-x < 0 ∧
      toRat x = -toRat (-x) := by
  have hc := isCanonical_of_isFinite hfinite
  generalize hx : x.toModel.unpack = u at hc
  obtain s | @⟨s, m, e, hm, hc⟩ := hc
  · exact absurd hsign (not_lt_zero_of_zero hx)
  · obtain ⟨cs, -, htext⟩ := exists_numeral m e hm
    obtain rfl := (lt_zero_iff_of_finite hx).1 hsign
    have hneg : (-x).toModel.unpack = .finite .positive m e hm := unpack_neg hx
    refine ⟨?_, ?_, ?_, ?_⟩
    · rw [htext hx, htext hneg]
      rfl
    · rw [Float.isFinite, Float.Model.isFinite, hneg]
      rfl
    · rw [lt_zero_iff_of_finite hneg]
      exact Sign.noConfusion
    · rw [toRat_of_finite hx, toRat_of_finite hneg]
      rfl

end Texts

end Number

end SymbolicDerivatives
