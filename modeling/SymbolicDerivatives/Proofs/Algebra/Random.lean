import SymbolicDerivatives.Proofs.Algebra.Ingredients

/-!
# Drawing terms

Whatever the draws are, a random term is made from its ingredients. Drawing fails only where a leaf
is to be chosen among no symbols at all; among no functions nothing is ever chosen.
-/

namespace SymbolicDerivatives

namespace Draw

variable {α β : Type} {E : Prop} {P : α → Prop} {Q : β → Prop}

/-- Every run gives a value with a property, or else fails, and then `E` holds. -/
def Gives (E : Prop) (P : α → Prop) (d : Draw α) : Prop :=
  ∀ draws, match d.run draws with
    | .ok (a, _) => P a
    | .error _ => E

theorem gives_pure {a : α} (h : P a) : Gives E P (pure a : Draw α) := fun _ ↦ h

theorem Gives.bind {d : Draw α} {f : α → Draw β} (hd : Gives E P d)
    (hf : ∀ a, P a → Gives E Q (f a)) : Gives E Q (d >>= f) := by
  intro draws
  have h := hd draws
  rw [StateT.run_bind]
  cases hrun : d.run draws with
  | error => rwa [hrun] at h
  | ok result =>
    rw [hrun] at h
    exact hf result.1 h result.2

theorem Gives.imp {E' : Prop} {d : Draw α} (h : Gives E P d) (himp : E → E') : Gives E' P d := by
  intro draws
  have h := h draws
  cases hrun : d.run draws with
  | error =>
    rw [hrun] at h
    exact himp h
  | ok => rwa [hrun] at h

theorem next_gives : Gives E (fun _ ↦ True) next := fun draws ↦ by cases draws <;> trivial

theorem below_gives (n : ℕ) : Gives E (fun _ ↦ True) (below n) :=
  next_gives.bind fun _ _ ↦ gives_pure trivial

theorem choice_gives (xs : List α) : Gives (xs = []) (· ∈ xs) (choice xs) := by
  match xs with
  | [] => exact fun _ ↦ rfl
  | x :: xs =>
    refine next_gives.bind fun k _ ↦ gives_pure ?_
    have hlt : k % (xs.length + 1) < (x :: xs).length := Nat.mod_lt _ (Nat.succ_pos _)
    rw [List.getElem?_eq_getElem hlt]
    exact List.getElem_mem hlt

theorem between_gives {first last : ℕ} (h : first ≤ last) :
    Gives E (fun n ↦ first ≤ n ∧ n ≤ last) (between first last) := by
  refine next_gives.bind fun k _ ↦ gives_pure ⟨Nat.le_add_right _ _, ?_⟩
  have hlt : k % (last - first + 1) < last - first + 1 := Nat.mod_lt _ (Nat.succ_pos _)
  omega

end Draw

namespace Ingredients

open Draw

variable {i : Ingredients}

theorem leaf_gives : Gives (i.symbols = []) (Term.MadeFrom i) i.leaf := by
  refine (below_gives 7).bind fun isSymbol _ ↦ ?_
  split
  · exact (choice_gives i.symbols).bind fun x hx ↦ gives_pure (.symbol hx)
  · exact (between_gives (by decide)).bind fun n _ ↦ gives_pure (.integer n)

/-- Functions are chosen only if there are some. -/
theorem functions_ne_nil_of_mem_kinds (h : NodeKind.function ∈ i.kinds) : i.functions ≠ [] := by
  intro hnil
  rw [kinds, hnil] at h
  simp at h

theorem tree_gives (depth : ℕ) : Gives (i.symbols = []) (Term.MadeFrom i) (i.tree depth) := by
  induction depth with
  | zero => exact leaf_gives
  | succ depth ih =>
    rw [tree]
    refine (below_gives 4).bind fun isLeaf _ ↦ ?_
    split
    · exact leaf_gives
    have hkinds : Gives (i.symbols = []) (· ∈ i.kinds) (choice i.kinds) :=
      (choice_gives i.kinds).imp fun hnil ↦ absurd hnil (by simp [kinds])
    refine hkinds.bind fun kind hkind ↦ ?_
    match kind with
    | .function =>
      have hfunctions : Gives (i.symbols = []) (· ∈ i.functions) (choice i.functions) :=
        (choice_gives i.functions).imp fun hnil ↦
          absurd hnil (functions_ne_nil_of_mem_kinds hkind)
      exact hfunctions.bind fun f hf ↦ ih.bind fun t ht ↦ gives_pure (ht.function hf)
    | .sum =>
      refine ih.bind fun s hs ↦ ih.bind fun t ht ↦ gives_pure (.sum ?_)
      exact List.forall_mem_cons.2 ⟨hs, List.forall_mem_singleton.2 ht⟩
    | .product =>
      refine ih.bind fun s hs ↦ ih.bind fun t ht ↦ gives_pure (.product ?_)
      exact List.forall_mem_cons.2 ⟨hs, List.forall_mem_singleton.2 ht⟩
    | .power =>
      exact ih.bind fun base hbase ↦ ih.bind fun _ _ ↦ (between_gives (by decide)).bind
        fun n _ ↦ gives_pure (hbase.power (Int.natCast_nonneg n))

theorem trees_gives (depth count : ℕ) :
    Gives (i.symbols = [] ∧ 0 < count) (fun ts ↦ ∀ t ∈ ts, Term.MadeFrom i t)
      (i.trees depth count) := by
  induction count with
  | zero => exact gives_pure (List.forall_mem_nil _)
  | succ count ih =>
    have hhead := (tree_gives (i := i) depth).imp fun hnil ↦ And.intro hnil count.succ_pos
    have htail := ih.imp fun h ↦ And.intro h.1 count.succ_pos
    rw [trees]
    exact hhead.bind fun t ht ↦ htail.bind fun ts hts ↦
      gives_pure (List.forall_mem_cons.2 ⟨ht, hts⟩)

/-- A random term is made from its ingredients, whatever the draws are. -/
theorem term_gives (count depth : ℤ) :
    Gives (i.symbols = [] ∧ 0 < count) (Term.MadeFrom i) (i.term count depth) := by
  refine Gives.bind ((trees_gives depth.toNat count.toNat).imp fun h ↦ ?_) fun ts hts ↦
    gives_pure (.sum hts)
  exact ⟨h.1, Int.lt_toNat.1 h.2⟩

end Ingredients

end SymbolicDerivatives
