import SymbolicDerivatives.Failure
import Mathlib.Data.List.Forall2

/-!
# Traversals that can fail

A pass over the operands of a node is a `List.mapM` into `Except`. It succeeds exactly if it
succeeds on every operand, and then its results stand in the order of the operands; so what a pass
does to a list is said by `List.Forall₂`, and the plumbing of `Except` stays in this file.
-/

namespace SymbolicDerivatives

variable {ε α β γ : Type}

theorem bind_eq_ok_iff {x : Except ε α} {f : α → Except ε β} {b : β} :
    x >>= f = .ok b ↔ ∃ a, x = .ok a ∧ f a = .ok b := by
  constructor
  · intro h
    cases x with
    | error failure => cases h
    | ok a => exact ⟨a, rfl, h⟩
  · rintro ⟨a, rfl, h⟩
    exact h

theorem map_eq_ok_iff {x : Except ε α} {f : α → β} {b : β} :
    f <$> x = .ok b ↔ ∃ a, x = .ok a ∧ f a = b := by
  constructor
  · intro h
    cases x with
    | error failure => cases h
    | ok a => cases h; exact ⟨a, rfl, rfl⟩
  · rintro ⟨a, rfl, rfl⟩
    rfl

theorem mapM_eq_ok_iff {f : α → Except ε β} {as : List α} {bs : List β} :
    as.mapM f = .ok bs ↔ List.Forall₂ (fun a b ↦ f a = .ok b) as bs := by
  induction as generalizing bs with
  | nil =>
    rw [List.mapM_nil, List.forall₂_nil_left_iff]
    exact ⟨fun h ↦ by cases h; rfl, fun h ↦ by rw [h]; rfl⟩
  | cons a as ih =>
    rw [List.mapM_cons, List.forall₂_cons_left_iff, bind_eq_ok_iff]
    constructor
    · rintro ⟨b, hb, h⟩
      obtain ⟨bs', hbs', h⟩ := bind_eq_ok_iff.1 h
      cases h
      exact ⟨b, bs', hb, ih.1 hbs', rfl⟩
    · rintro ⟨b, bs', hb, hbs', rfl⟩
      exact ⟨b, hb, bind_eq_ok_iff.2 ⟨bs', ih.2 hbs', rfl⟩⟩

/-- A traversal whose result on each element is known. -/
theorem mapM_eq_ok_map {f : α → Except ε β} {g : α → β} {as : List α}
    (h : ∀ a ∈ as, f a = .ok (g a)) : as.mapM f = .ok (as.map g) := by
  rw [mapM_eq_ok_iff, List.forall₂_map_right_iff]
  exact List.forall₂_same.2 h

theorem exists_mapM_eq_ok {f : α → Except ε β} {as : List α} (h : ∀ a ∈ as, ∃ b, f a = .ok b) :
    ∃ bs, as.mapM f = .ok bs := by
  induction as with
  | nil => exact ⟨[], rfl⟩
  | cons a as ih =>
    obtain ⟨b, hb⟩ := h a List.mem_cons_self
    obtain ⟨bs, hbs⟩ := ih fun a ha ↦ h a (List.mem_cons_of_mem _ ha)
    exact ⟨b :: bs, mapM_eq_ok_iff.2 (.cons hb (mapM_eq_ok_iff.1 hbs))⟩

theorem exists_mem_left_of_forall₂ {R : α → β → Prop} {as : List α} {bs : List β}
    (h : List.Forall₂ R as bs) {b : β} (hb : b ∈ bs) : ∃ a ∈ as, R a b := by
  induction h with
  | nil => cases hb
  | cons hab _ ih =>
    rcases List.mem_cons.1 hb with rfl | hb
    · exact ⟨_, List.mem_cons_self, hab⟩
    · obtain ⟨a, ha, hr⟩ := ih hb
      exact ⟨a, List.mem_cons_of_mem _ ha, hr⟩

theorem exists_mem_right_of_forall₂ {R : α → β → Prop} {as : List α} {bs : List β}
    (h : List.Forall₂ R as bs) {a : α} (ha : a ∈ as) : ∃ b ∈ bs, R a b :=
  exists_mem_left_of_forall₂ h.flip ha

theorem exists_getElem?_of_forall₂ {R : α → β → Prop} {as : List α} {bs : List β}
    (h : List.Forall₂ R as bs) {k : Nat} {a : α} (ha : as[k]? = some a) :
    ∃ b, bs[k]? = some b ∧ R a b := by
  induction h generalizing k with
  | nil => cases ha
  | cons hab _ ih =>
    cases k with
    | zero => cases ha; exact ⟨_, rfl, hab⟩
    | succ k => exact ih ha

theorem exists_mem_zip {as : List α} {bs : List β} (h : as.length = bs.length) {b : β}
    (hb : b ∈ bs) : ∃ a ∈ as, (a, b) ∈ as.zip bs :=
  exists_mem_left_of_forall₂ (List.forall₂_iff_zip.2 ⟨h, id⟩) hb

/-- A traversal whose results are images of those of another one fails where that one fails. -/
theorem mapM_eq_map_mapM {f : α → Except ε γ} {g : α → Except ε β} {k : β → γ} {as : List α}
    (h : ∀ a ∈ as, f a = k <$> g a) : as.mapM f = List.map k <$> as.mapM g := by
  induction as with
  | nil => rw [List.mapM_nil, List.mapM_nil]; rfl
  | cons a as ih =>
    obtain ⟨ha, has⟩ := List.forall_mem_cons.1 h
    rw [List.mapM_cons, List.mapM_cons, ha, ih has]
    cases g a with
    | error failure => rfl
    | ok b => cases as.mapM g <;> rfl

theorem mapM_congr {f g : α → Except ε β} {as : List α} (h : ∀ a ∈ as, f a = g a) :
    as.mapM f = as.mapM g := by
  rw [mapM_eq_map_mapM (k := id) fun a ha ↦ (h a ha).trans (id_map _).symm, List.map_id_fun,
    id_map]

/-- A traversal that keeps a reading of each element keeps the list of readings. -/
theorem map_eq_of_mapM_eq_ok {f : α → Except ε β} {g : β → γ} {k : α → γ} {as : List α}
    {bs : List β} (h : as.mapM f = .ok bs) (hkeep : ∀ a ∈ as, ∀ b, f a = .ok b → g b = k a) :
    bs.map g = as.map k := by
  have hall := mapM_eq_ok_iff.1 h
  clear h
  induction hall with
  | nil => rfl
  | @cons a b as bs hab _ ih =>
    rw [List.map_cons, List.map_cons, hkeep a List.mem_cons_self b hab,
      ih fun a ha ↦ hkeep a (List.mem_cons_of_mem _ ha)]

end SymbolicDerivatives
