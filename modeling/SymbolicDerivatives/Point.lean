import SymbolicDerivatives.Log
import SymbolicDerivatives.Number.Literal
import SymbolicDerivatives.Number.Text
import SymbolicDerivatives.Text.Pieces
import SymbolicDerivatives.Text.Quoted

/-!
# Points

A point gives values to names. It is read from a line of words, `name value name value …`, where a
later value of a name replaces an earlier one and a last word without a value is ignored. The names
`e` and `pi` have values at every point unless the line gives them others, and any other name
without a value counts as zero.

A point keeps the names in the order of their first appearance, each once, with its last value. The
bindings that it has in all, those of `e` and `pi` first, are a view of that list.
-/

namespace SymbolicDerivatives

/-- The values given to names, in the order in which the names first appear. -/
structure Point where
  given : List (String × Float)

namespace Point

/-- The names with a value at every point. -/
def reserved : List (String × Float) := [("e", 2.718281828459045), ("pi", 3.141592653589793)]

def isReserved (name : String) : Bool := name = "e" || name = "pi"

/-- Gives a value to a name: in its place if it has one, at the end otherwise. -/
def assign (name : String) (value : Float) : List (String × Float) → List (String × Float)
  | [] => [(name, value)]
  | (n, v) :: rest => if n = name then (n, value) :: rest else (n, v) :: assign name value rest

@[simp] theorem lookup_assign_self (name : String) (value : Float) (given : List (String × Float)) :
    (assign name value given).lookup name = some value := by
  induction given with
  | nil => simp [assign]
  | cons entry rest ih =>
    obtain ⟨n, v⟩ := entry
    by_cases h : n = name
    · simp [assign, h]
    · have h' : (name == n) = false := beq_false_of_ne (Ne.symm h)
      simp [assign, h, List.lookup_cons, h', ih]

theorem lookup_assign_of_ne {name other : String} (h : other ≠ name) (value : Float)
    (given : List (String × Float)) :
    (assign name value given).lookup other = given.lookup other := by
  have h' : (other == name) = false := beq_false_of_ne h
  induction given with
  | nil => simp [assign, List.lookup_cons, h']
  | cons entry rest ih =>
    obtain ⟨n, v⟩ := entry
    by_cases hn : n = name
    · simp [assign, hn, List.lookup_cons, h']
    · simp [assign, hn, List.lookup_cons, ih]

/-- Giving a value adds a name at the end, unless the name is there. -/
theorem map_fst_assign (name : String) (value : Float) (given : List (String × Float)) :
    (assign name value given).map Prod.fst =
      if name ∈ given.map Prod.fst then given.map Prod.fst else given.map Prod.fst ++ [name] := by
  induction given with
  | nil => simp [assign]
  | cons entry rest ih =>
    obtain ⟨n, v⟩ := entry
    by_cases h : n = name
    · simp [assign, h]
    · rw [assign, if_neg h, List.map_cons, ih, List.map_cons]
      by_cases hm : name ∈ rest.map Prod.fst
      · rw [if_pos hm, if_pos (List.mem_cons_of_mem _ hm)]
      · rw [if_neg hm, if_neg (by simp [hm, Ne.symm h])]
        rfl

/-- The point that gives each name the last value paired with it. -/
def ofPairs (pairs : List (String × Float)) : Point where
  given := pairs.foldl (fun given (name, value) ↦ assign name value given) []

theorem nodup_given_ofPairs (pairs : List (String × Float)) :
    ((ofPairs pairs).given.map Prod.fst).Nodup := by
  suffices h : ∀ given : List (String × Float), (given.map Prod.fst).Nodup →
      ((pairs.foldl (fun given (name, value) ↦ assign name value given) given).map
        Prod.fst).Nodup from h [] List.nodup_nil
  induction pairs with
  | nil => exact fun _ h ↦ h
  | cons pair pairs ih =>
    intro given hgiven
    refine ih _ ?_
    rw [map_fst_assign]
    split
    · exact hgiven
    · next hm =>
      rw [List.nodup_append]
      refine ⟨hgiven, List.pairwise_singleton _ _, fun a ha b hb ↦ ?_⟩
      rw [List.mem_singleton] at hb
      exact hb ▸ ne_of_mem_of_not_mem ha hm

/-- All bindings: those of the reserved names, then those of the others. -/
def bindings (p : Point) : List (String × Float) :=
  reserved.map (fun (name, value) ↦ (name, (p.given.lookup name).getD value)) ++
    p.given.filter fun (name, _) ↦ !isReserved name

def get (p : Point) (name : String) : Float := (p.bindings.lookup name).getD 0

/-- The names given values, other than the reserved ones. -/
def names (p : Point) : List String :=
  (p.given.map Prod.fst).filter fun name ↦ !isReserved name

/-- The line of words that gives the values of a point. -/
def line (p : Point) : String :=
  " ".intercalate (p.given.map fun (name, value) ↦ name ++ " " ++ Number.text value)

/-- A point as the line in quotes that it can be read from. -/
def describe (p : Point) : String := "Point(" ++ Text.quoted p.line ++ ")"

/-! ## Reading -/

/-- Consecutive words in pairs; a last word on its own is left out. -/
def pairUp : List String → List (String × String)
  | name :: value :: rest => (name, value) :: pairUp rest
  | _ => []

/-- The last word, if it is without a partner. -/
def unpaired? : List String → Option String
  | [] => none
  | [word] => some word
  | _ :: _ :: rest => unpaired? rest

/-- The value that a word gives to a name; a word that is no number gives a not-a-number. -/
def readValue (word : String) : Float := (Number.ofWord? word).getD Number.notANumber

/-- The record of a pair whose second word is no number. -/
def pairRecord? (pair : String × String) : Option Record :=
  match Number.ofWord? pair.2 with
  | some _ => none
  | none => some ⟨.warning, .point,
      "Binding for '" ++ pair.1 ++ "' is not a number: '" ++ pair.2 ++ "'"⟩

def unpairedRecord (word : String) : Record :=
  ⟨.warning, .point, "Ignoring variable '" ++ word ++ "' with no value"⟩

/-- The point that a line gives; without a line there are no values. -/
def ofLine (line : Option String) : Logged Point :=
  let words := Text.words (line.getD "")
  let pairs := pairUp words
  { value := ofPairs (pairs.map fun (name, word) ↦ (name, readValue word))
    log := (unpaired? words).toList.map unpairedRecord ++ pairs.filterMap pairRecord? }

end Point

end SymbolicDerivatives
