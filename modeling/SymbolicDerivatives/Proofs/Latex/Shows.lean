import SymbolicDerivatives.Proofs.Formula.Value
import SymbolicDerivatives.Proofs.Latex.Seen

/-!
# Typeset formulas as phrases

What is seen of a typeset formula is a phrase of the grammar of formulas, so it has one tree and one
value. `Shows r level latex a` says this of a text with the level of the phrase and its value `a`,
and there is one lemma for each way in which texts are put together. The names of the phrase stand
for the names and for the numerals of the text, so `r` has to assign both.

The value says less than the tree. Nothing separates a sum from the terms around it, so the phrase
of a formula may group its terms in another way than the formula does.
-/

namespace SymbolicDerivatives.Latex

open Formula (Phrase)
open Token (isNamePart)
open SymbolicDerivatives.Expr (realValue)

/-! ## Signs -/

theorem reads_of_next {latex : List Char} {c : Char} (sign : List Char) (ts : List Token)
    (rest : List Char) (hseen : seenFrom false latex = c :: (sign ++ seenFrom false rest))
    (hnext : nextTokens c (sign ++ seenFrom false rest) = (ts, seenFrom false rest)) :
    reads latex = ts ++ reads rest := by
  rw [reads, hseen]
  exact tokens_cons hnext (by simp)

section Signs

variable (rest : List Char)

theorem reads_plus : reads (' ' :: '+' :: ' ' :: rest) = .plus :: reads rest :=
  reads_of_next ['+', ' '] [.plus] rest rfl rfl

theorem reads_minus : reads (' ' :: '-' :: ' ' :: rest) = .minus :: reads rest :=
  reads_of_next ['-', ' '] [.minus] rest rfl rfl

theorem reads_times :
    reads (' ' :: '\\' :: 'c' :: 'd' :: 'o' :: 't' :: ' ' :: rest) = .times :: reads rest :=
  reads_of_next ['\\', 'c', 'd', 'o', 't', ' '] [.times] rest rfl rfl

theorem reads_negative : reads ('-' :: rest) = .minus :: reads rest :=
  reads_of_next [] [.minus] rest rfl rfl

theorem reads_opening : reads ('(' :: rest) = .opening :: reads rest :=
  reads_of_next [] [.opening] rest rfl rfl

theorem reads_closing : reads (')' :: rest) = .closing :: reads rest :=
  reads_of_next [] [.closing] rest rfl rfl

theorem reads_call (f : Func) :
    reads ('\\' :: (f.keyword.toList ++ '(' :: rest)) = .function f :: .opening :: reads rest := by
  cases f with
  | ln => exact reads_of_next ['l', 'n', '('] [.function .ln, .opening] rest rfl rfl
  | sin => exact reads_of_next ['s', 'i', 'n', '('] [.function .sin, .opening] rest rfl rfl
  | cos => exact reads_of_next ['c', 'o', 's', '('] [.function .cos, .opening] rest rfl rfl

/-- The end of a base and the start of its exponent. -/
theorem reads_exponent :
    reads ('\x7d' :: '^' :: '\x7b' :: rest) = .caret :: .opening :: reads rest :=
  reads_of_next ['\x7b'] [.caret, .opening] rest rfl rfl

/-- The end of an exponent. -/
theorem reads_exponentEnd (h : Ends rest) : reads ('\x7d' :: rest) = .closing :: reads rest := by
  have hcaret : rest.head? ≠ some '^' := fun hcaret ↦ absurd (h '^' hcaret) (by decide)
  have hseen : seenFrom false ('\x7d' :: rest) = '\x7d' :: seenFrom false rest := by
    rw [seenFrom, if_neg (by simpa using hcaret)]
    rfl
  exact reads_of_next [] [.closing] rest hseen rfl

end Signs

/-! ## Factors after a numeral -/

/-- The text starts with a factor that can follow a numeral. -/
def Leads (latex : List Char) : Prop :=
  ∀ rest, Ends rest → StartsFactor (seenFrom false (latex ++ rest))

theorem leads_of_head {c : Char} (cs : List Char) (hseen : ∀ rest,
    seenFrom false (c :: cs ++ rest) = c :: seenFrom false (cs ++ rest))
    (hc : startsFactor c = true) (he : c ≠ 'e') : Leads (c :: cs) := by
  intro rest _
  rw [hseen]
  exact ⟨⟨c, rfl, hc⟩, fun sign tail heq ↦ absurd (List.cons.inj heq).1 he⟩

theorem leads_opening (cs : List Char) : Leads ('(' :: cs) :=
  leads_of_head cs (fun _ ↦ rfl) (by decide) (by decide)

theorem leads_call (cs : List Char) : Leads ('\\' :: cs) :=
  leads_of_head cs (fun _ ↦ rfl) (by decide) (by decide)

theorem leads_name {word : List Char} (h : Token.IsName word) : Leads word := by
  intro rest hrest
  rw [seenFrom_name h]
  obtain @⟨first, parts, start, hparts⟩ := h
  refine ⟨⟨first, rfl, ?_⟩, fun sign tail heq ↦ ?_⟩
  · rw [startsFactor, start]
    rfl
  · -- what follows the letter of an exponent goes on with the word or ends it
    have hsign : isNamePart sign = true ∨ sign ∈ enders := by
      have hhead : (parts ++ seenFrom false rest).head? = some sign :=
        congrArg List.head? (List.cons.inj heq).2
      rw [List.head?_append, Option.or_eq_some_iff] at hhead
      rcases hhead with hword | ⟨-, hafter⟩
      · exact .inl (hparts sign (List.mem_of_mem_head? hword))
      · exact .inr (hrest.mem_enders sign hafter)
    intro hmem
    have hnone : ['+', '-'].any (fun c ↦ isNamePart c || c ∈ enders) = false := by decide
    refine List.any_eq_false.1 hnone sign hmem ?_
    rwa [Bool.or_eq_true, decide_eq_true_eq]

theorem leads_power {base : List Char} (h : Leads base) (exponent : List Char) :
    Leads ('\x7b' :: (base ++ '\x7d' :: '^' :: exponent)) := by
  intro rest _
  have hbase := h ('\x7d' :: '^' :: (exponent ++ rest)) (ends_cons (by decide) _)
  have hopening (cs : List Char) : seenFrom false ('\x7b' :: cs) = seenFrom false cs := rfl
  rw [List.cons_append, hopening, List.append_assoc]
  exact hbase

/-! ## Phrases -/

/-- What is seen of the text is a phrase of the level, with the value `a`. -/
def Shows (r : String → ℝ) (level : Formula.Level) (latex : List Char) (a : ℝ) : Prop :=
  ∃ ts e, Phrase level ts e ∧ (∀ literal, .number literal ∉ ts) ∧ e.realValue r = a ∧
    ∀ rest, Ends rest → reads (latex ++ rest) = ts ++ reads rest

namespace Shows

variable {r : String → ℝ} {level : Formula.Level} {latex latex' : List Char} {a b : ℝ}

theorem name {word : List Char} (h : Token.IsName word) :
    Shows r .closed word (r (String.ofList word)) :=
  ⟨_, _, .name _, by simp, Expr.realValue_var r _, fun _ hrest ↦ reads_name h hrest⟩

theorem numeral {cs : List Char} (h : Number.Numeral cs) :
    Shows r .closed cs (r (String.ofList cs)) :=
  ⟨_, _, .name _, by simp, Expr.realValue_var r _, fun _ hrest ↦ reads_numeral h hrest⟩

/-! ### Levels -/

theorem factor (h : Shows r .closed latex a) : Shows r .factor latex a := by
  obtain ⟨ts, e, hphrase, hshows⟩ := h
  exact ⟨ts, e, .base hphrase, hshows⟩

theorem term (h : Shows r .factor latex a) : Shows r .term latex a := by
  obtain ⟨ts, e, hphrase, hshows⟩ := h
  exact ⟨ts, e, hphrase.factor_term, hshows⟩

theorem expression (h : Shows r .term latex a) : Shows r .expression latex a := by
  obtain ⟨ts, e, hphrase, hshows⟩ := h
  exact ⟨ts, e, hphrase.term_expression, hshows⟩

theorem parentheses (h : Shows r .expression latex a) :
    Shows r .closed ('(' :: (latex ++ [')'])) a := by
  obtain ⟨ts, e, hphrase, hnumber, hvalue, hreads⟩ := h
  refine ⟨_, e, .parentheses hphrase, by simpa using hnumber, hvalue, fun rest hrest ↦ ?_⟩
  simp only [List.cons_append, List.append_assoc, List.nil_append]
  rw [reads_opening, hreads _ (ends_cons (by decide) rest), reads_closing]

theorem call (f : Func) (h : Shows r .expression latex a) :
    Shows r .closed ('\\' :: (f.keyword.toList ++ '(' :: (latex ++ [')']))) (f.eval a) := by
  obtain ⟨ts, e, hphrase, hnumber, rfl, hreads⟩ := h
  refine ⟨_, _, .closedFunction f (.parentheses hphrase), by simpa using hnumber,
    Expr.realValue_apply r f e, fun rest hrest ↦ ?_⟩
  simp only [List.cons_append, List.append_assoc, List.nil_append]
  rw [reads_call, hreads _ (ends_cons (by decide) rest), reads_closing]

theorem power (h : Shows r .closed latex a) (h' : Shows r .expression latex' b) :
    Shows r .factor ('\x7b' :: (latex ++ '\x7d' :: '^' :: '\x7b' :: (latex' ++ ['\x7d'])))
      (a ^ b) := by
  obtain ⟨ts, e, hphrase, hnumber, rfl, hreads⟩ := h
  obtain ⟨ts', e', hphrase', hnumber', rfl, hreads'⟩ := h'
  refine ⟨_, _, .power hphrase (.base (.parentheses hphrase')), by simp [hnumber, hnumber'],
    Expr.realValue_pow r e e', fun rest hrest ↦ ?_⟩
  have hopening (cs : List Char) : reads ('\x7b' :: cs) = reads cs := rfl
  simp only [List.cons_append, List.append_assoc, List.nil_append]
  rw [hopening, hreads _ (ends_cons (by decide) _), reads_exponent,
    hreads' _ (ends_cons (by decide) rest), reads_exponentEnd rest hrest]

/-! ### Signs between phrases -/

theorem sum (h : Shows r .expression latex a) (h' : Shows r .expression latex' b) :
    Shows r .expression (latex ++ ' ' :: '+' :: ' ' :: latex') (a + b) := by
  obtain ⟨ts, e, hphrase, hnumber, rfl, hreads⟩ := h
  obtain ⟨ts', e', hphrase', hnumber', rfl, hreads'⟩ := h'
  obtain ⟨f, hjoined, hvalue⟩ := hphrase.exists_sum (r := r) hphrase'
  refine ⟨_, f, hjoined, by simp [hnumber, hnumber'], hvalue, fun rest hrest ↦ ?_⟩
  simp only [List.cons_append, List.append_assoc]
  rw [hreads _ (ends_cons (by decide) _), reads_plus, hreads' rest hrest]

theorem difference (h : Shows r .expression latex a) (h' : Shows r .term latex' b) :
    Shows r .expression (latex ++ ' ' :: '-' :: ' ' :: latex') (a - b) := by
  obtain ⟨ts, e, hphrase, hnumber, rfl, hreads⟩ := h
  obtain ⟨ts', e', hphrase', hnumber', rfl, hreads'⟩ := h'
  obtain ⟨f, hjoined, hvalue⟩ := hphrase.exists_difference (r := r) hphrase'
  refine ⟨_, f, hjoined, by simp [hnumber, hnumber'], hvalue, fun rest hrest ↦ ?_⟩
  simp only [List.cons_append, List.append_assoc]
  rw [hreads _ (ends_cons (by decide) _), reads_minus, hreads' rest hrest]

theorem product (h : Shows r .term latex a) (h' : Shows r .term latex' b) :
    Shows r .term (latex ++ ' ' :: '\\' :: 'c' :: 'd' :: 'o' :: 't' :: ' ' :: latex') (a * b) := by
  obtain ⟨ts, e, hphrase, hnumber, rfl, hreads⟩ := h
  obtain ⟨ts', e', hphrase', hnumber', rfl, hreads'⟩ := h'
  obtain ⟨f, hjoined, hvalue⟩ := hphrase.exists_product (r := r) hphrase'
  refine ⟨_, f, hjoined, by simp [hnumber, hnumber'], hvalue, fun rest hrest ↦ ?_⟩
  simp only [List.cons_append, List.append_assoc]
  rw [hreads _ (ends_cons (by decide) _), reads_times, hreads' rest hrest]

theorem negated (h : Shows r .term latex a) : Shows r .term ('-' :: latex) (-a) := by
  obtain ⟨ts, e, hphrase, hnumber, rfl, hreads⟩ := h
  obtain ⟨f, hnegated, hvalue⟩ := hphrase.exists_negated (r := r) fun literal hhead ↦
    hnumber literal (List.mem_of_mem_head? hhead)
  refine ⟨_, f, hnegated, by simpa using hnumber, hvalue, fun rest hrest ↦ ?_⟩
  rw [List.cons_append, reads_negative, hreads rest hrest, List.cons_append]

/-- A numeral before a term that no sign separates from it. -/
theorem coefficient {cs : List Char} (hcs : Number.Numeral cs) (h : Shows r .term latex a)
    (hleads : Leads latex) :
    Shows r .term (cs ++ latex) (r (String.ofList cs) * a) := by
  obtain ⟨ts, e, hphrase, hnumber, rfl, hreads⟩ := h
  obtain ⟨f, hjoined, hvalue⟩ :=
    (Phrase.name (String.ofList cs)).closed_term.exists_product (r := r) hphrase
  refine ⟨_, f, hjoined, by simpa using hnumber, ?_, fun rest hrest ↦ ?_⟩
  · rw [hvalue, Expr.realValue_var]
  · rw [List.append_assoc, reads_coefficient hcs (hleads rest hrest), hreads rest hrest]
    rfl

theorem intercalate {separator : List Char} {fold : List ℝ → ℝ} (hone : ∀ a, fold [a] = a)
    (hcons : ∀ {latex latex' a as}, Shows r level latex a → Shows r level latex' (fold as) →
      Shows r level (latex ++ separator ++ latex') (fold (a :: as)))
    {texts : List (List Char)} {values : List ℝ} (h : List.Forall₂ (Shows r level) texts values)
    (hne : texts ≠ []) : Shows r level (separator.intercalate texts) (fold values) := by
  induction h with
  | nil => exact absurd rfl hne
  | @cons text a texts values hfirst hothers ih =>
    by_cases hnil : texts = []
    · subst hnil
      rw [List.forall₂_nil_left_iff.1 hothers, hone, List.intercalate_singleton]
      exact hfirst
    · rw [List.intercalate_cons_of_ne_nil hnil]
      exact hcons hfirst (ih hnil)

end Shows

end SymbolicDerivatives.Latex
