import SymbolicDerivatives.Proofs.Formula.Grammar
import SymbolicDerivatives.Proofs.Formula.Scanning
import SymbolicDerivatives.Proofs.Number.Reading

/-!
# Pieces of written formulas

In a written formula every operation stands in parentheses, so its tokens do not depend on what
stands around it. A `Formula.Piece` is a text with its tokens, built from the operands of a node in
the way in which the node is written.

Literals have no exponents: what is written with one is cut into a number, the name `e`, a sign and
another number. No phrase of the grammar has a number before a name, so a piece with an exponent
somewhere in it is no phrase.
-/

namespace SymbolicDerivatives

/-! ## Numbers before names -/

namespace Token

/-- A number does not stand before a name. -/
def Adjacent : Token → Token → Prop
  | .number _, .name _ => False
  | _, _ => True

/-- Whether a token is a number or a name. -/
def isWord : Token → Bool
  | .number _ | .name _ => true
  | _ => false

theorem adjacent_of_left {a b : Token} (h : a.isWord = false) : Adjacent a b := by
  cases a with
  | number | name => cases h
  | _ => exact trivial

theorem adjacent_of_right {a b : Token} (h : b.isWord = false) : Adjacent a b := by
  cases b with
  | number | name => cases h
  | _ => cases a <;> exact trivial

variable {tokens tokens' : List Token}

theorem isChain_append_cons {t : Token} (ht : t.isWord = false) (h : tokens.IsChain Adjacent)
    (h' : tokens'.IsChain Adjacent) : (tokens ++ t :: tokens').IsChain Adjacent := by
  refine h.append (List.isChain_cons.2 ⟨fun _ _ ↦ adjacent_of_left ht, h'⟩) ?_
  rintro _ - b hb
  rw [List.head?_cons] at hb
  exact Option.some.inj hb ▸ adjacent_of_right ht

theorem isChain_append_flatMap {α : Type} {others : List α} {sign : α → Token}
    {tokensOf : α → List Token} (hsign : ∀ t ∈ others, (sign t).isWord = false)
    (h : tokens.IsChain Adjacent) (hothers : ∀ t ∈ others, (tokensOf t).IsChain Adjacent) :
    (tokens ++ others.flatMap fun t ↦ sign t :: tokensOf t).IsChain Adjacent := by
  induction others generalizing tokens with
  | nil => rwa [List.flatMap_nil, List.append_nil]
  | cons t others ih =>
    obtain ⟨hsign, hsigns⟩ := List.forall_mem_cons.1 hsign
    obtain ⟨ht, hothers⟩ := List.forall_mem_cons.1 hothers
    rw [List.flatMap_cons, ← List.append_assoc]
    exact ih hsigns (isChain_append_cons hsign h ht) hothers

end Token

namespace Formula

open Token (Adjacent EndsNumber EndsOperand Scans IsName isChain_append_cons isChain_append_flatMap
  scans_name scans_number scans_sign scans_function)

/-- No phrase has a number before a name. -/
theorem Phrase.isChain {level : Level} {tokens : List Token} {e : Expr Float}
    (h : Phrase level tokens e) : tokens.IsChain Adjacent := by
  induction h with
  | expression _ others _ ihfirst ih =>
    refine isChain_append_flatMap (fun t _ ↦ ?_) ihfirst ih
    cases t.1 <;> rfl
  | term _ others _ ihfirst ih => exact isChain_append_flatMap (fun _ _ ↦ rfl) ihfirst ih
  | base _ ih | operand _ ih => exact ih
  | power _ _ ihbase ihexponent => exact isChain_append_cons rfl ihbase ihexponent
  | number | name => exact List.isChain_singleton _
  | negative => exact isChain_append_cons rfl .nil (List.isChain_singleton _)
  | parentheses _ ih => exact isChain_append_cons rfl .nil (isChain_append_cons rfl ih .nil)
  | closedFunction _ _ ih | negated _ _ ih | openFunction _ _ ih =>
    exact isChain_append_cons rfl .nil ih

/-! ## Pieces -/

/-- The text of an operand, and the tokens that it is cut into wherever an operand ends. -/
structure Piece where
  chars : List Char
  tokens : List Token
  scans : ∀ rest, EndsOperand rest → Scans chars tokens rest

namespace Piece

def name {cs : List Char} (h : IsName cs) : Piece where
  chars := cs
  tokens := [.name (String.ofList cs)]
  scans _ hrest := scans_name hrest h

def number {cs : List Char} {q : ℚ} (h : Number.Spells cs q) : Piece where
  chars := cs
  tokens := [.number (String.ofList cs)]
  scans _ hrest := scans_number hrest.endsNumber h

def negative (p : Piece) : Piece where
  chars := '-' :: p.chars
  tokens := .minus :: p.tokens
  scans rest hrest := (scans_sign rfl _).append (p.scans rest hrest)

theorem isName_e : Token.IsName ['e'] := .intro (by decide) (List.forall_mem_nil _)

theorem endsNumber_e (cs : List Char) : EndsNumber ('e' :: cs) := by
  intro c hc
  cases hc
  decide

/-- A number with an exponent. -/
def exponential {mantissa magnitude : List Char} {q r : ℚ} {c : Char} {t : Token}
    (hmantissa : Number.Spells mantissa q) (hc : c ∈ Token.enders) (ht : Token.sign? c = some t)
    (hmagnitude : Number.Spells magnitude r) : Piece where
  chars := mantissa ++ 'e' :: c :: magnitude
  tokens := [.number (String.ofList mantissa), .name (String.ofList ['e']), t,
    .number (String.ofList magnitude)]
  scans _ hrest := (scans_number (endsNumber_e _) hmantissa).append <|
    (scans_name (Token.endsOperand_cons hc _) isName_e).append <|
      (scans_sign ht _).append (scans_number hrest.endsNumber hmagnitude)

/-- The text of operands with a sign before each but the first. -/
def joinedChars (c : Char) (first : Piece) (others : List Piece) : List Char :=
  first.chars ++ others.flatMap fun p ↦ c :: p.chars

/-- The tokens of operands with a sign before each but the first. -/
def joinedTokens (t : Token) (first : Piece) (others : List Piece) : List Token :=
  first.tokens ++ others.flatMap fun p ↦ t :: p.tokens

/-- Operands end before a sign between them, and before the parenthesis that closes the node. -/
theorem scans_joined {c : Char} {t : Token} (hc : c ∈ Token.enders) (ht : Token.sign? c = some t)
    (first : Piece) (others : List Piece) {rest : List Char} (hrest : EndsOperand rest) :
    Scans (joinedChars c first others) (joinedTokens t first others) rest := by
  induction others generalizing first with
  | nil =>
    rw [joinedChars, joinedTokens, List.flatMap_nil, List.flatMap_nil, List.append_nil,
      List.append_nil]
    exact first.scans _ hrest
  | cons p others ih =>
    have hfirst := first.scans (c :: (joinedChars c p others ++ rest))
      (Token.endsOperand_cons hc _)
    have hothers := (scans_sign ht _).append (ih p)
    exact hfirst.append hothers

/-- A node whose operands are joined by a sign. -/
def node {c : Char} {t : Token} (hc : c ∈ Token.enders) (ht : Token.sign? c = some t)
    (first : Piece) (others : List Piece) : Piece where
  chars := '(' :: (joinedChars c first others ++ [')'])
  tokens := .opening :: (joinedTokens t first others ++ [.closing])
  scans rest _ :=
    have hclosing : EndsOperand ([')'] ++ rest) := Token.endsOperand_cons (by decide) _
    (scans_sign rfl _).append ((scans_joined hc ht first others hclosing).append (scans_sign rfl _))

def call (f : Func) (p : Piece) : Piece where
  chars := f.keyword.toList ++ '(' :: (p.chars ++ [')'])
  tokens := .function f :: .opening :: (p.tokens ++ [.closing])
  scans rest _ :=
    have hclosing : EndsOperand ([')'] ++ rest) := Token.endsOperand_cons (by decide) _
    (scans_function f _).append
      ((scans_sign rfl _).append ((p.scans _ hclosing).append (scans_sign rfl _)))

/-! ## Texts of nodes -/

theorem intercalate_cons {α : Type} (a : α) (x : List α) (xs : List (List α)) :
    [a].intercalate (x :: xs) = x ++ xs.flatMap fun y ↦ a :: y := by
  induction xs generalizing x with
  | nil => rw [List.intercalate_singleton, List.flatMap_nil, List.append_nil]
  | cons y ys ih =>
    rw [List.intercalate_cons_cons, ih, List.flatMap_cons, List.append_assoc]
    rfl

theorem toList_node {o : Operator} {c : Char} {t : Token} (hsymbol : o.symbol.toList = [c])
    (hc : c ∈ Token.enders) (ht : Token.sign? c = some t) {first : Piece} {others : List Piece}
    {texts : List String} (h : texts.map String.toList = (first :: others).map chars) :
    ("(" ++ o.symbol.intercalate texts ++ ")").toList = (node hc ht first others).chars := by
  rw [String.toList_append, String.toList_append, String.toList_intercalate, h, hsymbol,
    List.map_cons, intercalate_cons, List.flatMap_map]
  rfl

theorem toList_call {f : Func} {p : Piece} {s : String} (h : s.toList = p.chars) :
    (f.keyword ++ "(" ++ s ++ ")").toList = (call f p).chars := by
  rw [String.toList_append, String.toList_append, String.toList_append, h, List.append_assoc,
    List.append_assoc]
  rfl

/-! ## Pieces that are no phrases -/

/-- A constant with an exponent is no phrase. -/
theorem exists_of_exponential {x : Float} (hfinite : x.isFinite = true)
    (hexponent : 'e' ∈ (Number.plainText x).toList) :
    ∃ p : Piece, (Number.plainText x).toList = p.chars ∧ ¬p.tokens.IsChain Adjacent := by
  obtain ⟨isNegative, cs, htext, hcs⟩ := Number.exists_exponential hfinite hexponent
  obtain ⟨p, rfl, hp⟩ : ∃ p : Piece, cs = p.chars ∧ ¬p.tokens.IsChain Adjacent := by
    obtain ⟨hmantissa, hsign, hmagnitude⟩ := hcs
    have hnumber : ∀ {literal word : String} {tokens : List Token},
        ¬(.number literal :: .name word :: tokens).IsChain Adjacent :=
      fun hchain ↦ (List.isChain_cons_cons.1 hchain).1
    rcases List.mem_pair.1 hsign with rfl | rfl
    · exact ⟨exponential hmantissa (by decide) rfl hmagnitude, rfl, hnumber⟩
    · exact ⟨exponential hmantissa (by decide) rfl hmagnitude, rfl, hnumber⟩
  cases isNegative with
  | false => exact ⟨p, htext, hp⟩
  | true => exact ⟨negative p, htext, fun hchain ↦ hp (List.isChain_cons.1 hchain).2⟩

variable {first p : Piece} {others : List Piece} {c : Char} {t : Token}

/-- A node is no phrase if one of its operands is none. -/
theorem not_isChain_node (hc : c ∈ Token.enders) (ht : Token.sign? c = some t)
    (hp : p ∈ first :: others) (h : ¬p.tokens.IsChain Adjacent) :
    ¬(node hc ht first others).tokens.IsChain Adjacent := by
  intro hchain
  have hjoined : p.tokens <:+: joinedTokens t first others := by
    rcases List.mem_cons.1 hp with rfl | hp
    · exact (List.prefix_append _ _).isInfix
    · have hsuffix : p.tokens <:+: t :: p.tokens := (List.suffix_cons t p.tokens).isInfix
      have hmem : t :: p.tokens <:+: others.flatMap fun p ↦ t :: p.tokens :=
        List.infix_of_mem_flatten (List.mem_map_of_mem hp)
      exact (hsuffix.trans hmem).trans (List.suffix_append _ _).isInfix
  have hnode : p.tokens <:+: (node hc ht first others).tokens :=
    hjoined.trans (List.infix_append [Token.opening] _ [Token.closing])
  exact h <| List.IsChain.infix hchain hnode

theorem not_isChain_call (f : Func) (h : ¬p.tokens.IsChain Adjacent) :
    ¬(call f p).tokens.IsChain Adjacent := by
  intro hchain
  have hcall : p.tokens <:+: (call f p).tokens :=
    List.infix_append [Token.function f, .opening] _ [Token.closing]
  exact h <| List.IsChain.infix hchain hcall

end Piece

end Formula

end SymbolicDerivatives
