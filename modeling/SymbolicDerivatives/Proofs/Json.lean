import SymbolicDerivatives.Json
import Mathlib.Data.List.Basic

/-!
# Rendered values are printable

Whatever characters the strings of a value have, its text has printable ASCII characters only, so it
stays on one line.
-/

namespace SymbolicDerivatives.Json

/-- Whether a character is a printable one of ASCII, or a space. -/
def isPrintableAscii (c : Char) : Bool := 0x20 ≤ c.toNat && c.toNat < 0x7f

/-! ## Strings -/

theorem isPrintableAscii_of_mem_hex {c : Char} {width n : ℕ} (h : c ∈ Text.hex width n) :
    isPrintableAscii c = true := by
  have hdigit : ∀ d < 16, isPrintableAscii d.digitChar = true := by decide
  induction width generalizing n with
  | zero => exact absurd h List.not_mem_nil
  | succ width ih =>
    rw [Text.hex] at h
    rcases List.mem_append.1 h with h | h
    · exact ih h
    · exact List.mem_singleton.1 h ▸ hdigit _ (Nat.mod_lt _ (by decide))

theorem isPrintableAscii_of_mem_escapeUnit {c : Char} {n : ℕ} (h : c ∈ escapeUnit n) :
    isPrintableAscii c = true := by
  rcases List.mem_cons.1 h with rfl | h
  · rfl
  rcases List.mem_cons.1 h with rfl | h
  · rfl
  · exact isPrintableAscii_of_mem_hex h

theorem isPrintableAscii_of_mem_escapeChar {c d : Char} (h : d ∈ escapeChar c) :
    isPrintableAscii d = true := by
  have hpair {e : Char} (he : isPrintableAscii e = true) (h : d ∈ ['\\', e]) :
      isPrintableAscii d = true := by
    rcases List.mem_cons.1 h with rfl | h
    · rfl
    · exact List.mem_singleton.1 h ▸ he
  rw [escapeChar] at h
  split at h
  · next hself =>
    refine hpair ?_ h
    rw [Bool.or_eq_true, decide_eq_true_eq, decide_eq_true_eq] at hself
    rcases hself with rfl | rfl <;> rfl
  iterate 5
    split at h
    · exact hpair rfl h
  split at h
  · next hprintable => exact List.mem_singleton.1 h ▸ hprintable
  split at h
  · exact isPrintableAscii_of_mem_escapeUnit h
  · rcases List.mem_append.1 h with h | h
    · exact isPrintableAscii_of_mem_escapeUnit h
    · exact isPrintableAscii_of_mem_escapeUnit h

/-! ## Values -/

/-- The text has printable ASCII characters only. -/
def Printable (s : String) : Prop := ∀ c ∈ s.toList, isPrintableAscii c = true

theorem Printable.append {s t : String} (hs : Printable s) (ht : Printable t) :
    Printable (s ++ t) := by
  rw [Printable, String.toList_append]
  exact List.forall_mem_append.2 ⟨hs, ht⟩

theorem printable_renderString (s : String) : Printable (renderString s) := by
  have hquote : ∀ c ∈ ['"'], isPrintableAscii c = true := List.forall_mem_singleton.2 rfl
  have hescaped : ∀ c ∈ s.toList.flatMap escapeChar, isPrintableAscii c = true := by
    intro c hc
    obtain ⟨d, -, hc⟩ := List.mem_flatMap.1 hc
    exact isPrintableAscii_of_mem_escapeChar hc
  rw [Printable, renderString, String.toList_ofList]
  exact List.forall_mem_append.2 ⟨List.forall_mem_append.2 ⟨hquote, hescaped⟩, hquote⟩

theorem printable_member {name value : String} (h : Printable value) :
    Printable (renderString name ++ ": " ++ value) := by
  have hcolon : Printable ": " := List.all_eq_true.1 (by decide)
  exact ((printable_renderString name).append hcolon).append h

mutual

/-- A rendered value has printable ASCII characters only. -/
theorem printable_render : ∀ value : Json, Printable value.render
  | null => by
    rw [render]
    exact List.all_eq_true.1 (by decide)
  | string text => by
    rw [render]
    exact printable_renderString text
  | object members => by
    have hopening : Printable "\x7b" := List.all_eq_true.1 (by decide)
    have hclosing : Printable "\x7d" := List.all_eq_true.1 (by decide)
    rw [render]
    exact (hopening.append (printable_renderMembers members)).append hclosing

theorem printable_renderMembers :
    ∀ members : List (String × Json), Printable (renderMembers members)
  | [] => by
    rw [renderMembers]
    exact List.all_eq_true.1 (by decide)
  | [(name, value)] => by
    rw [renderMembers]
    exact printable_member (printable_render value)
  | (name, value) :: member :: rest => by
    have hcomma : Printable ", " := List.all_eq_true.1 (by decide)
    rw [renderMembers]
    · exact ((printable_member (printable_render value)).append hcomma).append
        (printable_renderMembers (member :: rest))
    · exact List.cons_ne_nil _ _

end

end SymbolicDerivatives.Json
