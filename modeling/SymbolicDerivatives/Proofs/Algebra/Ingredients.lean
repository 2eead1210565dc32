import SymbolicDerivatives.Algebra.Random
import SymbolicDerivatives.Proofs.Algebra.Formula

/-!
# Terms made from ingredients

A random term is made from the symbols and functions of its ingredients, and so is its derivative.
What `MadeFrom` says of a term is kept by sums, products, powers and functions of terms in order,
since they only take terms apart and put them together again: each operand of the result is an
operand, a base or an integer multiple of what there was. Exponents of powers stay above one, and so
sums of exponents are never zero.
-/

namespace SymbolicDerivatives

open Token (IsName)

namespace Term

/-- The terms made from ingredients: symbols and integers at the leaves, and above them sums and
products of two operands or more, powers with an exponent above one, and functions. -/
inductive MadeFrom (i : Ingredients) : Term → Prop
  | symbol {x : String} (mem : x ∈ i.symbols) : MadeFrom i (symbol x)
  | integer (n : ℤ) : MadeFrom i (integer n)
  | add {ts : List Term} (two_le : 2 ≤ ts.length) (terms : ∀ t ∈ ts, MadeFrom i t) :
      MadeFrom i (add ts)
  | mul {ts : List Term} (two_le : 2 ≤ ts.length) (factors : ∀ t ∈ ts, MadeFrom i t) :
      MadeFrom i (mul ts)
  | pow {base : Term} {n : ℤ} (hbase : MadeFrom i base) (one_lt : 1 < n) :
      MadeFrom i (pow base (integer n))
  | apply {f : TermFunc} {t : Term} (mem : f ∈ i.functions) (h : MadeFrom i t) :
      MadeFrom i (apply f t)

/-! ## Terms and their numbers -/

/-- What holds of all terms with their numbers holds after a term is counted. -/
theorem forall_mem_count {R : Term × ℤ → Prop}
    (hadd : ∀ s t m n, R (s, m) → R (t, n) → R (s, m + n)) {t : Term} {n : ℤ} (ht : R (t, n))
    {counts : List (Term × ℤ)} (h : ∀ p ∈ counts, R p) : ∀ p ∈ count t n counts, R p := by
  induction counts with
  | nil => exact List.forall_mem_singleton.2 ht
  | cons p counts ih =>
    obtain ⟨s, m⟩ := p
    obtain ⟨hp, hcounts⟩ := List.forall_mem_cons.1 h
    rw [count]
    split
    · exact List.forall_mem_cons.2 ⟨hadd _ _ _ _ hp ht, hcounts⟩
    · exact List.forall_mem_cons.2 ⟨hp, ih hcounts⟩

theorem forall_mem_tally {R : Term × ℤ → Prop}
    (hadd : ∀ s t m n, R (s, m) → R (t, n) → R (s, m + n)) {ts : List (Term × ℤ)}
    (h : ∀ p ∈ ts, R p) : ∀ p ∈ tally ts, R p := by
  suffices hfold : ∀ counts : List (Term × ℤ), (∀ p ∈ counts, R p) →
      ∀ p ∈ ts.foldl (fun counts p ↦ count p.1 p.2 counts) counts, R p from
    fun p hp ↦ hfold [] (List.forall_mem_nil _) p (List.mem_of_mem_filter hp)
  induction ts with
  | nil => exact fun _ hcounts ↦ hcounts
  | cons p ts ih =>
    obtain ⟨hp, hts⟩ := List.forall_mem_cons.1 h
    exact fun counts hcounts ↦ ih hts _ (forall_mem_count hadd hp hcounts)

/-! ## Terms in order -/

variable {i : Ingredients} {t : Term} {ts : List Term} {n : ℤ}

theorem madeFrom_add_iff :
    MadeFrom i (add ts) ↔ 2 ≤ ts.length ∧ ∀ t ∈ ts, MadeFrom i t :=
  ⟨fun | .add two_le terms => ⟨two_le, terms⟩, fun h ↦ .add h.1 h.2⟩

theorem madeFrom_mul_iff :
    MadeFrom i (mul ts) ↔ 2 ≤ ts.length ∧ ∀ t ∈ ts, MadeFrom i t :=
  ⟨fun | .mul two_le factors => ⟨two_le, factors⟩, fun h ↦ .mul h.1 h.2⟩

theorem madeFrom_pow_iff {base exponent : Term} :
    MadeFrom i (pow base exponent) ↔ ∃ n, exponent = integer n ∧ MadeFrom i base ∧ 1 < n := by
  constructor
  · intro h
    cases h with
    | pow hbase one_lt => exact ⟨_, rfl, hbase, one_lt⟩
  · rintro ⟨n, rfl, hbase, one_lt⟩
    exact .pow hbase one_lt

theorem derivatives_eq_map (x : String) (ts : List Term) :
    derivatives x ts = ts.map (derivative x) := by
  induction ts with
  | nil => rw [derivatives, List.map_nil]
  | cons t ts ih => rw [derivatives, ih, List.map_cons]

theorem foreignNames_eq_flatMap (ts : List Term) : foreignNames ts = ts.flatMap foreign := by
  induction ts with
  | nil => rw [foreignNames, List.flatMap_nil]
  | cons t ts ih => rw [foreignNames, ih, List.flatMap_cons]

/-! ## The steps of sums and products -/

/-- The terms of a sum, where sums in it dissolve. -/
def summands (ts : List Term) : List Term :=
  ts.flatMap fun
    | add inner => inner
    | t => [t]

/-- The multiples in a sum: terms that are equal but for their integer factors, taken together. -/
def multiples (ts : List Term) : List Term :=
  (tally ((ts.filter fun t ↦ t.integer?.isNone).map splitFactor)).map fun (t, n) ↦ scale n t

theorem sum_eq (ts : List Term) :
    let constant := ((summands ts).filterMap integer?).foldl (· + ·) 0
    let terms := sort (multiples (summands ts))
    sum ts = bareSum (if constant = 0 then terms else integer constant :: terms) := rfl

/-- The factors of a product, where products in it dissolve. -/
def factors (ts : List Term) : List Term :=
  ts.flatMap fun
    | mul inner => inner
    | t => [t]

/-- The powers in a product: factors that are equal but for their integer exponents, taken
together. -/
def powers (ts : List Term) : List Term :=
  (tally ((ts.filter fun t ↦ t.integer?.isNone).map splitExponent)).map fun (t, n) ↦ raise t n

theorem product_eq (ts : List Term) :
    let constant := ((factors ts).filterMap integer?).foldl (· * ·) 1
    let powers := sort (powers (factors ts))
    product ts =
      if constant = 0 then integer 0
      else if constant = 1 then bareProduct powers
      else match powers with
        | [add inner] => sum (inner.map (scale constant))
        | _ => bareProduct (integer constant :: powers) := rfl

namespace MadeFrom

theorem bareSum (h : ∀ t ∈ ts, MadeFrom i t) : MadeFrom i (bareSum ts) := by
  match ts with
  | [] => exact .integer 0
  | [t] => exact h t List.mem_cons_self
  | t :: s :: ts => exact .add (Nat.le_add_left 2 _) h

theorem bareProduct (h : ∀ t ∈ ts, MadeFrom i t) : MadeFrom i (bareProduct ts) := by
  match ts with
  | [] => exact .integer 1
  | [t] => exact h t List.mem_cons_self
  | t :: s :: ts => exact .mul (Nat.le_add_left 2 _) h

theorem splitFactor (h : MadeFrom i t) : MadeFrom i (splitFactor t).1 := by
  rw [Term.splitFactor.eq_def]
  split
  · exact bareProduct (List.forall_mem_cons.1 (madeFrom_mul_iff.1 h).2).2
  · exact h

theorem scale (n : ℤ) (h : MadeFrom i t) : MadeFrom i (scale n t) := by
  rw [Term.scale.eq_def]
  split
  · exact .integer _
  · obtain ⟨two_le, factors⟩ := madeFrom_mul_iff.1 h
    have hrest := (List.forall_mem_cons.1 factors).2
    split
    · exact bareProduct hrest
    · exact .mul two_le (List.forall_mem_cons.2 ⟨.integer _, hrest⟩)
  · obtain ⟨two_le, factors⟩ := madeFrom_mul_iff.1 h
    split
    · exact h
    · exact .mul (Nat.le_succ_of_le two_le) (List.forall_mem_cons.2 ⟨.integer n, factors⟩)
  · split
    · exact h
    · exact .mul le_rfl (List.forall_mem_cons.2 ⟨.integer n, List.forall_mem_singleton.2 h⟩)

theorem sort (h : ∀ t ∈ ts, MadeFrom i t) : ∀ t ∈ sort ts, MadeFrom i t :=
  fun t ht ↦ h t (List.mem_mergeSort.1 ht)

theorem summands (h : ∀ t ∈ ts, MadeFrom i t) : ∀ t ∈ summands ts, MadeFrom i t := by
  intro t ht
  obtain ⟨s, hs, ht⟩ := List.mem_flatMap.1 ht
  split at ht
  · exact (madeFrom_add_iff.1 (h _ hs)).2 t ht
  · exact List.mem_singleton.1 ht ▸ h s hs

theorem splitFactors (h : ∀ t ∈ ts, MadeFrom i t) :
    ∀ p ∈ (ts.filter fun t ↦ t.integer?.isNone).map Term.splitFactor, MadeFrom i p.1 :=
  List.forall_mem_map.2 fun t ht ↦ (h t (List.mem_of_mem_filter ht)).splitFactor

theorem multiples (h : ∀ t ∈ ts, MadeFrom i t) : ∀ t ∈ multiples ts, MadeFrom i t := by
  have htally := forall_mem_tally (fun _ _ _ _ hs _ ↦ hs) (splitFactors h)
  exact List.forall_mem_map.2 fun p hp ↦ (htally p hp).scale p.2

theorem sum (h : ∀ t ∈ ts, MadeFrom i t) : MadeFrom i (sum ts) := by
  have hterms := sort (multiples (summands h))
  rw [sum_eq]
  split
  · exact bareSum hterms
  · exact bareSum (List.forall_mem_cons.2 ⟨.integer _, hterms⟩)

theorem splitExponent (h : MadeFrom i t) :
    MadeFrom i (splitExponent t).1 ∧ 0 < (splitExponent t).2 := by
  rw [Term.splitExponent.eq_def]
  split
  · obtain ⟨n, heq, hbase, one_lt⟩ := madeFrom_pow_iff.1 h
    obtain rfl := Term.integer.inj heq
    exact ⟨hbase, Int.zero_lt_one.trans one_lt⟩
  · exact ⟨h, Int.zero_lt_one⟩

theorem raise (h : MadeFrom i t) (hn : 0 < n) : MadeFrom i (raise t n) := by
  rw [Term.raise]
  split
  · exact h
  · exact .pow h (by omega)

theorem factors (h : ∀ t ∈ ts, MadeFrom i t) : ∀ t ∈ factors ts, MadeFrom i t := by
  intro t ht
  obtain ⟨s, hs, ht⟩ := List.mem_flatMap.1 ht
  split at ht
  · exact (madeFrom_mul_iff.1 (h _ hs)).2 t ht
  · exact List.mem_singleton.1 ht ▸ h s hs

theorem splitExponents (h : ∀ t ∈ ts, MadeFrom i t) :
    ∀ p ∈ (ts.filter fun t ↦ t.integer?.isNone).map Term.splitExponent,
      MadeFrom i p.1 ∧ 0 < p.2 :=
  List.forall_mem_map.2 fun t ht ↦ (h t (List.mem_of_mem_filter ht)).splitExponent

theorem tally_splitExponents (h : ∀ t ∈ ts, MadeFrom i t) :
    ∀ p ∈ tally ((ts.filter fun t ↦ t.integer?.isNone).map Term.splitExponent),
      MadeFrom i p.1 ∧ 0 < p.2 :=
  forall_mem_tally (fun _ _ _ _ hs ht ↦ ⟨hs.1, Int.add_pos hs.2 ht.2⟩) (splitExponents h)

theorem powers (h : ∀ t ∈ ts, MadeFrom i t) : ∀ t ∈ powers ts, MadeFrom i t := by
  have htally := tally_splitExponents h
  exact List.forall_mem_map.2 fun p hp ↦ (htally p hp).1.raise (htally p hp).2

theorem product (h : ∀ t ∈ ts, MadeFrom i t) : MadeFrom i (product ts) := by
  have hpowers := sort (powers (factors h))
  rw [product_eq]
  generalize Term.sort (Term.powers (Term.factors ts)) = powers at hpowers
  split
  · exact .integer 0
  split
  · exact bareProduct hpowers
  split
  · next inner =>
    rw [List.forall_mem_singleton] at hpowers
    refine sum fun t ht ↦ ?_
    obtain ⟨s, hs, rfl⟩ := List.mem_map.1 ht
    exact ((madeFrom_add_iff.1 hpowers).2 s hs).scale _
  · exact bareProduct (List.forall_mem_cons.2 ⟨.integer _, hpowers⟩)

theorem powerOfFactor (h : MadeFrom i t) (hn : 0 < n) : MadeFrom i (powerOfFactor n t) := by
  rw [Term.powerOfFactor.eq_def]
  split
  · rw [if_pos hn.le]
    exact .integer _
  · obtain ⟨m, heq, hbase, one_lt⟩ := madeFrom_pow_iff.1 h
    obtain rfl := Term.integer.inj heq
    exact hbase.raise (Int.mul_pos (Int.zero_lt_one.trans one_lt) hn)
  · exact h.raise hn

theorem power (h : MadeFrom i t) (hn : 0 ≤ n) : MadeFrom i (power t n) := by
  rw [Term.power.eq_def]
  split
  · exact .integer 1
  · next hne =>
    have hpos : 0 < n := lt_of_le_of_ne hn (Ne.symm hne)
    split
    · refine product fun t ht ↦ ?_
      obtain ⟨s, hs, rfl⟩ := List.mem_map.1 ht
      exact ((madeFrom_mul_iff.1 h).2 s hs).powerOfFactor hpos
    · exact h.powerOfFactor hpos

theorem function {f : TermFunc} (hf : f ∈ i.functions) (h : MadeFrom i t) :
    MadeFrom i (function f t) := by
  rw [Term.function.eq_def]
  split
  any_goals exact .integer _
  exact .apply hf h

theorem productRule {before ds : List Term} (hbefore : ∀ t ∈ before, MadeFrom i t)
    (hts : ∀ t ∈ ts, MadeFrom i t) (hds : ∀ d ∈ ds, MadeFrom i d) :
    ∀ t ∈ productRule before ts ds, MadeFrom i t := by
  induction ts generalizing before ds with
  | nil => exact List.forall_mem_nil _
  | cons t ts ih =>
    obtain ⟨ht, hts⟩ := List.forall_mem_cons.1 hts
    match ds with
    | [] => exact List.forall_mem_nil _
    | d :: ds =>
      obtain ⟨hd, hds⟩ := List.forall_mem_cons.1 hds
      refine List.forall_mem_cons.2 ⟨product ?_, ih ?_ hts hds⟩
      · exact List.forall_mem_append.2 ⟨hbefore, List.forall_mem_cons.2 ⟨hd, hts⟩⟩
      · exact List.forall_mem_append.2 ⟨hbefore, List.forall_mem_singleton.2 ht⟩

/-- The derivative is made from the ingredients, if the slopes of the functions are. -/
theorem derivative (hslope : ∀ f ∈ i.functions, ∀ t, MadeFrom i t → MadeFrom i (slope f t))
    (x : String) (h : MadeFrom i t) : MadeFrom i (derivative x t) := by
  induction h with
  | symbol => exact .integer _
  | integer => exact .integer 0
  | add _ _ ih =>
    rw [Term.derivative, derivatives_eq_map]
    exact sum (List.forall_mem_map.2 ih)
  | mul _ factors ih =>
    rw [Term.derivative, derivatives_eq_map]
    exact sum (productRule (List.forall_mem_nil _) factors (List.forall_mem_map.2 ih))
  | pow hbase one_lt ih =>
    rw [Term.derivative]
    exact product (List.forall_mem_cons.2 ⟨.integer _, List.forall_mem_cons.2
      ⟨hbase.power (by omega), List.forall_mem_singleton.2 ih⟩⟩)
  | apply mem h ih =>
    rw [Term.derivative]
    exact product (List.forall_mem_cons.2 ⟨hslope _ mem _ h, List.forall_mem_singleton.2 ih⟩)

/-! ## Formulas -/

theorem readable (hsymbols : ∀ x ∈ i.symbols, IsName x.toList) (h : MadeFrom i t) : t.Readable := by
  induction h with
  | symbol mem => exact .symbol (hsymbols _ mem)
  | integer n => exact .integer n
  | add two_le _ ih => exact .add two_le ih
  | mul two_le _ ih => exact .mul two_le ih
  | pow _ _ ih => exact .pow ih (.integer _)
  | apply _ _ ih => exact .apply _ ih

theorem foreign_eq_nil (hfunctions : ∀ f ∈ i.functions, f.keyword?.isSome = true)
    (h : MadeFrom i t) : t.foreign = [] := by
  induction h with
  | symbol | integer => rfl
  | add _ _ ih | mul _ _ ih =>
    rw [foreign, foreignNames_eq_flatMap]
    exact List.flatMap_eq_nil_iff.2 ih
  | pow _ _ ih => rw [foreign, ih]; rfl
  | apply mem _ ih =>
    rw [foreign, ih, Option.isNone_eq_false_iff.2 (hfunctions _ mem)]
    rfl

/-- A formula has no names other than the symbols. -/
theorem names_tree_subset (h : MadeFrom i t) : t.tree.names ⊆ i.symbols := by
  induction h with
  | symbol mem =>
    rw [tree, Expr.names_var]
    exact List.cons_subset.2 ⟨mem, List.nil_subset _⟩
  | integer =>
    rw [tree, Expr.names_const]
    exact List.nil_subset _
  | add _ _ ih | mul _ _ ih =>
    rw [tree, trees_eq_map]
    exact Expr.names_op_subset (List.forall_mem_map.2 ih)
  | pow _ _ ih =>
    rw [tree, Expr.names_pow, tree, Expr.names_const, List.append_nil]
    exact ih
  | apply _ _ ih =>
    rw [tree]
    exact Expr.names_op_subset (List.forall_mem_singleton.2 ih)

end MadeFrom

end Term

end SymbolicDerivatives
