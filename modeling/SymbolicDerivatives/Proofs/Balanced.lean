import SymbolicDerivatives.Number.Text
import Mathlib.Data.List.Basic

/-!
# Balanced text

Braces and parentheses of a typeset text are balanced if each of them is closed by its own kind, and
in the reverse order of opening. `dueAfter` keeps the brackets that are still to be closed; a text
is balanced if in the end these are the ones that there were before it. So balanced texts stay
balanced when they are joined, or put between brackets.
-/

namespace SymbolicDerivatives.Text

/-- The closing brackets that are due after a character. -/
def dueAfter (due : List Char) (c : Char) : Option (List Char) :=
  if c = '\x7b' then some ('\x7d' :: due)
  else if c = '(' then some (')' :: due)
  else if c = '\x7d' ∨ c = ')' then if due.head? = some c then some due.tail else none
  else some due

/-- Every bracket of the text is closed in it, and none is closed that was opened before it. -/
def Balanced (s : String) : Prop := ∀ due, s.toList.foldlM dueAfter due = some due

variable {s t : String}

theorem Balanced.append (hs : Balanced s) (ht : Balanced t) : Balanced (s ++ t) := by
  intro due
  rw [String.toList_append, List.foldlM_append, hs due]
  exact ht due

theorem balanced_intercalate {separator : String} (hseparator : Balanced separator)
    {texts : List String} (h : ∀ s ∈ texts, Balanced s) :
    Balanced (separator.intercalate texts) := by
  induction texts with
  | nil => exact fun _ ↦ rfl
  | cons s texts ih =>
    obtain ⟨hs, htexts⟩ := List.forall_mem_cons.1 h
    obtain _ | ⟨t, texts⟩ := texts
    · rwa [String.intercalate_singleton]
    · rw [String.intercalate_cons_cons]
      exact (hs.append hseparator).append (ih htexts)

/-- A bracket of either kind opens or closes. -/
def brackets : List Char := ['\x7b', '\x7d', '(', ')']

theorem dueAfter_of_notMem {c : Char} (h : c ∉ brackets) (due : List Char) :
    dueAfter due c = some due := by
  simp only [brackets, List.mem_cons, List.not_mem_nil, or_false, not_or] at h
  simp [dueAfter, h]

theorem balanced_of_notMem (h : ∀ c ∈ s.toList, c ∉ brackets) : Balanced s := by
  intro due
  generalize s.toList = cs at h
  induction cs with
  | nil => rfl
  | cons c cs ih =>
    obtain ⟨hc, hcs⟩ := List.forall_mem_cons.1 h
    rw [List.foldlM_cons, dueAfter_of_notMem hc]
    exact ih hcs

/-- A balanced text stays balanced between two that open and close a bracket. -/
theorem Balanced.enclosed (h : Balanced s) {opening closing : String} {c : Char}
    (hopening : ∀ due, opening.toList.foldlM dueAfter due = some (c :: due))
    (hclosing : ∀ due, closing.toList.foldlM dueAfter (c :: due) = some due) :
    Balanced (opening ++ s ++ closing) := by
  intro due
  rw [String.toList_append, String.toList_append, List.foldlM_append, List.foldlM_append, hopening]
  change s.toList.foldlM dueAfter (c :: due) >>= _ = _
  rw [h]
  exact hclosing due

end SymbolicDerivatives.Text
