import SymbolicDerivatives.Text.Quoted
import Mathlib.Algebra.Group.Nat.Defs
import Mathlib.Data.List.Basic

/-!
# What a quoted text shows

A text of printable characters without a single quote and a backslash is shown as it is, between
single quotes. In any other text some characters are shown by several, but these are never mistaken
for others: `firstShown` tells the first character from them, and what is shown after it. So a
quoted text shows one text only.
-/

namespace SymbolicDerivatives.Text

/-! ## Plain text -/

/-- Whether a character stands for itself between single quotes. -/
def isPlain (c : Char) : Bool := isPrintable c && c != '\'' && c != '\\'

theorem quoteChar_of_isPlain {c : Char} (h : isPlain c = true) : quoteChar '\'' c = [c] := by
  simp only [isPlain, Bool.and_eq_true, bne_iff_ne] at h
  obtain ⟨⟨hprintable, hquote⟩, hbackslash⟩ := h
  have hne {d : Char} (hd : isPrintable d = false) : c ≠ d := by
    rintro rfl
    exact Bool.eq_false_iff.1 hd hprintable
  rw [quoteChar, decide_eq_false hquote, decide_eq_false hbackslash, if_neg (by decide),
    if_neg (hne (by decide)), if_neg (hne (by decide)), if_neg (hne (by decide)),
    if_pos hprintable]

/-- Plain text is shown as it is. -/
theorem quoted_of_isPlain {s : String} (h : ∀ c ∈ s.toList, isPlain c = true) :
    quoted s = "'" ++ s ++ "'" := by
  have hmark : quoteMark s.toList = '\'' := by
    have hquote : s.toList.contains '\'' = false := by
      rw [Bool.eq_false_iff, Ne, List.contains_iff_mem]
      exact fun hmem ↦ absurd (h _ hmem) (by decide)
    rw [quoteMark, hquote]
    rfl
  have hchars : s.toList.flatMap (quoteChar '\'') = s.toList := by
    rw [List.flatMap_congr fun c hc ↦ quoteChar_of_isPlain (h c hc), List.flatMap_singleton']
  rw [← String.toList_inj, quoted, hmark, hchars, String.toList_ofList, String.toList_append,
    String.toList_append]
  rfl

/-! ## Any text -/

/-- The number that hexadecimal digits write. -/
def ofHex (digits : List Char) : ℕ :=
  digits.foldl (fun n c ↦ 16 * n + if c.isDigit then c.toNat - 48 else c.toNat - 87) 0

theorem ofHex_hex {width n : ℕ} (h : n < 16 ^ width) : ofHex (hex width n) = n := by
  induction width generalizing n with
  | zero => exact (Nat.lt_one_iff.1 h).symm
  | succ width ih =>
    have hhigh : n / 16 < 16 ^ width := Nat.div_lt_of_lt_mul (by rwa [← Nat.pow_succ'])
    have hdigit : ∀ d < 16, (if d.digitChar.isDigit then d.digitChar.toNat - 48
        else d.digitChar.toNat - 87) = d := by decide
    have hhex := ih hhigh
    rw [ofHex] at hhex
    rw [hex, ofHex, List.foldl_append, hhex, List.foldl_cons, List.foldl_nil,
      hdigit _ (Nat.mod_lt _ (by decide)), Nat.div_add_mod]

/-- The character that some digits at the front of a text give by its code point, and what follows
them. -/
def firstByCode (width : ℕ) (cs : List Char) : Char × List Char :=
  (Char.ofNat (ofHex (cs.take width)), cs.drop width)

/-- The first character that is shown between quotes, and what is shown after it. -/
def firstShown : List Char → Option (Char × List Char)
  | '\\' :: 't' :: cs => some ('\t', cs)
  | '\\' :: 'n' :: cs => some ('\n', cs)
  | '\\' :: 'r' :: cs => some ('\r', cs)
  | '\\' :: 'x' :: cs => some (firstByCode 2 cs)
  | '\\' :: 'u' :: cs => some (firstByCode 4 cs)
  | '\\' :: 'U' :: cs => some (firstByCode 8 cs)
  | '\\' :: c :: cs => some (c, cs)
  | c :: cs => some (c, cs)
  | [] => none

theorem firstByCode_hex {width : ℕ} {c : Char} (h : c.toNat < 16 ^ width) (cs : List Char) :
    firstByCode width (hex width c.toNat ++ cs) = (c, cs) := by
  have hlength : width = (hex width c.toNat).length := (length_hex _ _).symm
  rw [firstByCode, List.take_left' hlength.symm, List.drop_left' hlength.symm, ofHex_hex h,
    Char.ofNat_toNat]

theorem firstShown_escapeCode (c : Char) (cs : List Char) :
    firstShown (escapeCode c ++ cs) = some (c, cs) := by
  have hunicode : c.toNat < 16 ^ 8 := by
    have hsize : c.toNat < 4294967296 := c.val.toNat_lt
    exact hsize
  rw [escapeCode]
  split_ifs with hbyte hunit
  · exact congrArg some (firstByCode_hex hbyte cs)
  · exact congrArg some (firstByCode_hex hunit cs)
  · exact congrArg some (firstByCode_hex hunicode cs)

theorem firstShown_cons_of_ne {c : Char} (h : c ≠ '\\') (cs : List Char) :
    firstShown (c :: cs) = some (c, cs) := by
  simp [firstShown, h]

/-- The first character shown is the first one of the text. -/
theorem firstShown_quoteChar {mark : Char} (hmark : mark = '\'' ∨ mark = '"') (c : Char)
    (cs : List Char) : firstShown (quoteChar mark c ++ cs) = some (c, cs) := by
  rw [quoteChar]
  split_ifs with hescaped htab hnewline hreturn hprintable
  · simp only [Bool.or_eq_true, decide_eq_true_eq] at hescaped
    rcases hescaped with rfl | rfl
    · rcases hmark with rfl | rfl <;> rfl
    · rfl
  · rw [htab]; rfl
  · rw [hnewline]; rfl
  · rw [hreturn]; rfl
  · simp only [Bool.or_eq_true, decide_eq_true_eq, not_or] at hescaped
    exact firstShown_cons_of_ne hescaped.2 cs
  · exact firstShown_escapeCode c cs

theorem flatMap_quoteChar_inj {mark : Char} (hmark : mark = '\'' ∨ mark = '"')
    {cs ds : List Char} (h : cs.flatMap (quoteChar mark) = ds.flatMap (quoteChar mark)) :
    cs = ds := by
  have hshown := firstShown_quoteChar hmark
  induction cs generalizing ds with
  | nil =>
    obtain _ | ⟨d, ds⟩ := ds
    · rfl
    · have hfirst := congrArg firstShown h
      rw [List.flatMap_cons, hshown] at hfirst
      cases hfirst
  | cons c cs ih =>
    obtain _ | ⟨d, ds⟩ := ds
    · have hfirst := congrArg firstShown h
      rw [List.flatMap_cons, hshown] at hfirst
      cases hfirst
    · have hfirst := congrArg firstShown h
      rw [List.flatMap_cons, List.flatMap_cons, hshown, hshown] at hfirst
      obtain ⟨rfl, hrest⟩ := Prod.mk.inj (Option.some.inj hfirst)
      rw [ih hrest]

theorem quoteMark_eq (cs : List Char) : quoteMark cs = '\'' ∨ quoteMark cs = '"' := by
  rw [quoteMark]
  split
  · exact .inr rfl
  · exact .inl rfl

/-- A quoted text shows one text only. -/
theorem quoted_inj {s t : String} : quoted s = quoted t ↔ s = t := by
  refine ⟨fun h ↦ ?_, congrArg quoted⟩
  obtain ⟨hmark, hrest⟩ := List.cons.inj (String.ofList_injective h)
  rw [hmark] at hrest
  have hchars := flatMap_quoteChar_inj (quoteMark_eq _) (List.append_cancel_right hrest)
  exact String.toList_inj.1 hchars

end SymbolicDerivatives.Text
