import SymbolicDerivatives.Text.Pieces
import Mathlib

/-!
# Words with white space between them

The words of a text are those on the left of a white space and those on its right. So words that are
joined with a space between any two are the words of the text that this makes.
-/

namespace SymbolicDerivatives.Text

/-- A word: some characters, and no white space among them. -/
structure IsWord (w : String) : Prop where
  ne_empty : w ≠ ""
  solid : ∀ c ∈ w.toList, isBlank c = false

theorem isWord_ofList_iff {cs : List Char} :
    IsWord (String.ofList cs) ↔ cs ≠ [] ∧ ∀ c ∈ cs, isBlank c = false := by
  have hempty : String.ofList cs = "" ↔ cs = [] := by
    rw [← String.toList_inj, String.toList_ofList, String.toList_empty]
  constructor
  · rintro ⟨hne, hsolid⟩
    rw [String.toList_ofList] at hsolid
    exact ⟨mt hempty.2 hne, hsolid⟩
  · rintro ⟨hne, hsolid⟩
    exact ⟨mt hempty.1 hne, by rwa [String.toList_ofList]⟩

theorem solid_of_any {cs : List Char} (h : cs.any isBlank = false) : ∀ c ∈ cs, isBlank c = false :=
  fun c hc ↦ Bool.eq_false_of_not_eq_true (List.any_eq_false.1 h c hc)

theorem solid_of_mem_splitOnP {cs piece : List Char} (h : piece ∈ cs.splitOnP isBlank) :
    ∀ c ∈ piece, isBlank c = false := by
  induction cs generalizing piece with
  | nil =>
    rw [List.splitOnP_nil, List.mem_singleton] at h
    exact fun c hc ↦ absurd (h ▸ hc) List.not_mem_nil
  | cons d cs ih =>
    rw [List.splitOnP_cons_eq_if_modifyHead] at h
    split at h
    · rcases List.mem_cons.1 h with rfl | h
      · exact fun c hc ↦ absurd hc List.not_mem_nil
      · exact ih h
    · next hd =>
      obtain ⟨first, others, hsplit⟩ :=
        List.exists_cons_of_ne_nil (List.splitOnP_ne_nil isBlank cs)
      rw [hsplit] at h ih
      rcases List.mem_cons.1 h with rfl | h
      · exact List.forall_mem_cons.2 ⟨Bool.eq_false_of_not_eq_true hd, ih List.mem_cons_self⟩
      · exact ih (List.mem_cons_of_mem _ h)

theorem isWord_of_mem_words {s w : String} (h : w ∈ words s) : IsWord w := by
  rw [words, List.mem_map] at h
  obtain ⟨piece, hpiece, rfl⟩ := h
  obtain ⟨hsplit, hne⟩ := List.mem_filter.1 hpiece
  exact isWord_ofList_iff.2 ⟨by simpa using hne, solid_of_mem_splitOnP hsplit⟩

theorem words_empty : words "" = [] := rfl

/-- A word is its only word. -/
theorem IsWord.words_eq {w : String} (h : IsWord w) : words w = [w] := by
  have hne : w.toList ≠ [] := by
    rw [Ne, ← String.toList_empty, String.toList_inj]
    exact h.ne_empty
  rw [words, List.splitOnP_eq_singleton h.solid, List.filter_cons_of_pos (by simpa using hne),
    List.filter_nil, List.map_singleton, String.ofList_toList]

/-- A space separates words. -/
theorem words_append_space (s t : String) : words (s ++ " " ++ t) = words s ++ words t := by
  have htext : (s ++ " " ++ t).toList = s.toList ++ ' ' :: t.toList := by
    rw [String.toList_append, String.toList_append, List.append_assoc]
    rfl
  rw [words, htext, List.splitOnP_append_cons _ _ (by decide), List.filter_append, List.map_append,
    words, words]

theorem words_intercalate (texts : List String) :
    words (" ".intercalate texts) = texts.flatMap words := by
  induction texts with
  | nil => exact words_empty
  | cons text texts ih =>
    cases texts with
    | nil => rw [String.intercalate_singleton, List.flatMap_singleton]
    | cons next texts =>
      rw [String.intercalate_cons_cons, words_append_space, ih, ← List.flatMap_cons]

end SymbolicDerivatives.Text
