import SymbolicDerivatives.Point
import SymbolicDerivatives.Proofs.Number.Word
import SymbolicDerivatives.Proofs.Quoted

/-!
# Points are last-wins maps

A point is built by giving values to names, one pair after the other. What is true after some pairs
stays true after one more: each name has its last value, and the names stand in the order in which
they first appear (`InOrder`). The line of a point gives each of its names once, in that order, so
reading it gives the same point again.
-/

namespace SymbolicDerivatives.Point

/-! ## Values -/

/-- Of several values of a name the last one counts. -/
theorem lookup_foldl_assign (pairs given : List (String × Float)) (name : String) :
    (pairs.foldl (fun given (name, value) ↦ assign name value given) given).lookup name =
      (pairs.reverse.lookup name).or (given.lookup name) := by
  induction pairs generalizing given with
  | nil => rfl
  | cons pair pairs ih =>
    obtain ⟨n, v⟩ := pair
    have hstep : (assign n v given).lookup name =
        (List.lookup name [(n, v)]).or (given.lookup name) := by
      by_cases h : name = n
      · rw [h, lookup_assign_self, List.lookup_cons_self, Option.some_or]
      · rw [lookup_assign_of_ne h, List.lookup_cons, beq_false_of_ne h]
        rfl
    rw [List.foldl_cons, ih, hstep, List.reverse_cons, List.lookup_append, Option.or_assoc]

theorem lookup_given_ofPairs (pairs : List (String × Float)) (name : String) :
    (ofPairs pairs).given.lookup name = pairs.reverse.lookup name := by
  rw [ofPairs, lookup_foldl_assign, List.lookup_nil, Option.or_none]

theorem lookup_filter {keeps : String → Bool} {name : String} (h : keeps name = true)
    (given : List (String × Float)) :
    (given.filter fun entry ↦ keeps entry.1).lookup name = given.lookup name := by
  induction given with
  | nil => rfl
  | cons entry given ih =>
    rw [List.filter_cons, List.lookup_cons]
    split
    · rw [List.lookup_cons, ih]
    · next hentry =>
      have hne : name ≠ entry.1 := by
        rintro rfl
        exact hentry h
      rw [beq_false_of_ne hne, ih]

theorem lookup_map_value {α β : Type} (f : String → α → β) (values : List (String × α))
    (name : String) :
    (values.map fun entry ↦ (entry.1, f entry.1 entry.2)).lookup name =
      (values.lookup name).map (f name) := by
  induction values with
  | nil => rfl
  | cons entry values ih =>
    rw [List.map_cons, List.lookup_cons, List.lookup_cons, ih]
    cases h : name == entry.1 with
    | true => rw [← beq_iff_eq.1 h, Option.map_some]
    | false => rfl

theorem isReserved_eq_false {name : String} (h : reserved.lookup name = none) :
    isReserved name = false := by
  rw [isReserved, Bool.or_eq_false_iff, decide_eq_false_iff_not, decide_eq_false_iff_not]
  constructor
  · rintro rfl
    cases h
  · rintro rfl
    cases h

theorem get_eq (p : Point) (name : String) :
    p.get name = ((p.given.lookup name).or (reserved.lookup name)).getD 0 := by
  have hreserved :
      (reserved.map fun (name, value) ↦ (name, (p.given.lookup name).getD value)).lookup name =
        (reserved.lookup name).map fun value ↦ (p.given.lookup name).getD value :=
    lookup_map_value (fun name value ↦ (p.given.lookup name).getD value) reserved name
  rw [get, bindings, List.lookup_append, hreserved]
  cases h : reserved.lookup name with
  | some value => cases p.given.lookup name <;> rfl
  | none =>
    have hkeeps : (!isReserved name) = true := by rw [isReserved_eq_false h]; rfl
    rw [Option.map_none, Option.none_or, Option.or_none]
    exact congrArg (Option.getD · 0) (@lookup_filter (!isReserved ·) name hkeeps p.given)

/-! ## Names -/

/-- The names have each word of a list once, in the order of first appearance. -/
structure InOrder (names all : List String) : Prop where
  mem_iff : ∀ name, name ∈ names ↔ name ∈ all
  ordered : names.Pairwise fun a b ↦ all.idxOf a < all.idxOf b

/-- One more word goes to the end if it is new. -/
theorem InOrder.concat {names all : List String} (h : InOrder names all) (name : String) :
    InOrder (if name ∈ names then names else names ++ [name]) (all ++ [name]) := by
  have hordered : names.Pairwise fun a b ↦ (all ++ [name]).idxOf a < (all ++ [name]).idxOf b :=
    h.ordered.imp_of_mem fun ha hb hlt ↦ by
      rwa [List.idxOf_append_of_mem ((h.mem_iff _).1 ha),
        List.idxOf_append_of_mem ((h.mem_iff _).1 hb)]
  split
  · next hmem =>
    refine ⟨fun other ↦ ?_, hordered⟩
    rw [List.mem_append, List.mem_singleton, ← h.mem_iff]
    exact ⟨.inl, fun hother ↦ hother.elim id fun heq ↦ heq ▸ hmem⟩
  · next hnew =>
    refine ⟨fun other ↦ ?_, ?_⟩
    · rw [List.mem_append, List.mem_append, h.mem_iff]
    · refine List.pairwise_append.2 ⟨hordered, List.pairwise_singleton _ _, fun a ha b hb ↦ ?_⟩
      rw [List.mem_singleton.1 hb, List.idxOf_append_of_mem ((h.mem_iff a).1 ha),
        List.idxOf_append_of_notMem (mt (h.mem_iff name).2 hnew), List.idxOf_cons_self, add_zero]
      exact List.idxOf_lt_length_iff.2 ((h.mem_iff a).1 ha)

theorem given_ofPairs_concat (pairs : List (String × Float)) (name : String) (value : Float) :
    (ofPairs (pairs ++ [(name, value)])).given = assign name value (ofPairs pairs).given := by
  rw [ofPairs, List.foldl_append]
  rfl

theorem inOrder_given_ofPairs (pairs : List (String × Float)) :
    InOrder ((ofPairs pairs).given.map Prod.fst) (pairs.map Prod.fst) := by
  induction pairs using List.reverseRecOn with
  | nil => exact ⟨fun _ ↦ .rfl, .nil⟩
  | append_singleton pairs pair ih =>
    obtain ⟨name, value⟩ := pair
    rw [given_ofPairs_concat, map_fst_assign, List.map_append]
    exact ih.concat name

/-! ## Lines -/

/-- The words of a line, without the last one if it has no partner. -/
theorem flatMap_pairUp (words : List String) :
    (pairUp words).flatMap (fun (name, word) ↦ [name, word]) ++ (unpaired? words).toList =
      words := by
  fun_induction pairUp words with
  | case1 name word rest ih =>
    rw [List.flatMap_cons, unpaired?, List.append_assoc, ih]
    rfl
  | case2 words hshort =>
    match words, hshort with
    | [], _ => rfl
    | [word], _ => rfl
    | name :: word :: rest, hshort => exact absurd rfl (hshort name word rest)

theorem pairUp_flatMap (pairs : List (String × String)) :
    pairUp (pairs.flatMap fun (name, word) ↦ [name, word]) = pairs ∧
      unpaired? (pairs.flatMap fun (name, word) ↦ [name, word]) = none := by
  induction pairs with
  | nil => exact ⟨rfl, rfl⟩
  | cons pair pairs ih => exact ⟨congrArg (pair :: ·) ih.1, ih.2⟩

theorem isWord_of_mem_pairUp {s name : String} (h : name ∈ (pairUp (Text.words s)).map Prod.fst) :
    Text.IsWord name := by
  obtain ⟨pair, hpair, rfl⟩ := List.mem_map.1 h
  refine Text.isWord_of_mem_words (s := s) ?_
  rw [← flatMap_pairUp (Text.words s)]
  exact List.mem_append_left _ (List.mem_flatMap_of_mem hpair List.mem_cons_self)

/-- The words of the line of a point are its names, each with the text of its value. -/
theorem words_line {p : Point} (hnames : ∀ name ∈ p.given.map Prod.fst, Text.IsWord name) :
    Text.words p.line = (p.given.map fun (name, value) ↦ (name, Number.text value)).flatMap
      fun (name, word) ↦ [name, word] := by
  rw [line, Text.words_intercalate, List.flatMap_map, List.flatMap_map]
  refine List.flatMap_congr fun entry hentry ↦ ?_
  have hname := hnames _ (List.mem_map_of_mem hentry)
  rw [Text.words_append_space, hname.words_eq, (Number.isWord_text _).words_eq]
  rfl

theorem assign_of_notMem {name : String} {given : List (String × Float)}
    (h : name ∉ given.map Prod.fst) (value : Float) :
    assign name value given = given ++ [(name, value)] := by
  induction given with
  | nil => rfl
  | cons entry given ih =>
    rw [List.map_cons, List.mem_cons, not_or] at h
    rw [assign, if_neg (Ne.symm h.1), ih h.2]
    rfl

theorem ofPairs_of_nodup {given : List (String × Float)} (h : (given.map Prod.fst).Nodup) :
    (ofPairs given).given = given := by
  induction given using List.reverseRecOn with
  | nil => rfl
  | append_singleton given entry ih =>
    obtain ⟨name, value⟩ := entry
    rw [List.map_append, List.nodup_append] at h
    have hnew : name ∉ given.map Prod.fst := fun hmem ↦ h.2.2 name hmem name List.mem_cons_self rfl
    rw [given_ofPairs_concat, ih h.1, assign_of_notMem hnew]

theorem readValue_text (value : Float) : readValue (Number.text value) = value := by
  rw [readValue, Number.ofWord?_text, Option.getD_some]

/-- A point is read back from its line, and nothing is reported. -/
theorem ofLine_line {p : Point} (hnames : ∀ name ∈ p.given.map Prod.fst, Text.IsWord name)
    (hnodup : (p.given.map Prod.fst).Nodup) : ofLine (some p.line) = ⟨p, []⟩ := by
  obtain ⟨hpairs, hunpaired⟩ :=
    pairUp_flatMap (p.given.map fun (name, value) ↦ (name, Number.text value))
  have hvalues : (p.given.map fun (name, value) ↦ (name, Number.text value)).map
      (fun (name, word) ↦ (name, readValue word)) = p.given := by
    rw [List.map_map]
    refine (List.map_congr_left fun entry _ ↦ ?_).trans (List.map_id _)
    exact congrArg (Prod.mk entry.1) (readValue_text entry.2)
  have hrecords : (p.given.map fun (name, value) ↦ (name, Number.text value)).filterMap
      pairRecord? = [] := by
    rw [List.filterMap_map, List.filterMap_eq_nil_iff]
    intro entry _
    rw [Function.comp, pairRecord?, Number.ofWord?_text]
  rw [ofLine, Option.getD_some, words_line hnames]
  simp only
  rw [hpairs, hunpaired, hvalues, hrecords]
  exact congrArg (Logged.mk · []) (congrArg Point.mk (ofPairs_of_nodup hnodup))

theorem describe_of_isPlain {p : Point} (h : ∀ c ∈ p.line.toList, Text.isPlain c = true) :
    p.describe = "Point('" ++ p.line ++ "')" := by
  have hopening : "Point('" = "Point(" ++ "'" := rfl
  have hclosing : "')" = "'" ++ ")" := rfl
  simp only [describe, Text.quoted_of_isPlain h, hopening, hclosing, String.append_assoc]

/-- A point shows its line and no other text. -/
theorem describe_eq_iff (p : Point) (text : String) :
    p.describe = "Point(" ++ Text.quoted text ++ ")" ↔ text = p.line := by
  rw [describe, String.append_left_inj, String.append_right_inj, Text.quoted_inj, eq_comm]

/-- **A point is the last-wins map of its line, and is read back from the line that it shows.** The
words of the line make pairs, and perhaps a last word that is left out. The line of the point is the
one text that it shows, and stands there as it is if all its characters are plain. -/
theorem ofLine_lastWins (line : Option String) :
    let words := Text.words (line.getD "")
    let pairs := pairUp words
    let p := (ofLine line).value
    pairs.flatMap (fun (name, word) ↦ [name, word]) ++ (unpaired? words).toList = words ∧
      (∀ name, p.get name =
        (((pairs.reverse.lookup name).map readValue).or (reserved.lookup name)).getD 0) ∧
      p.names.Nodup ∧
      (∀ name, name ∈ p.names ↔ name ∈ pairs.map Prod.fst ∧ name ≠ "e" ∧ name ≠ "pi") ∧
      (p.names.Pairwise fun a b ↦
        (pairs.map Prod.fst).idxOf a < (pairs.map Prod.fst).idxOf b) ∧
      p.describe = "Point(" ++ Text.quoted p.line ++ ")" ∧
      (∀ text, p.describe = "Point(" ++ Text.quoted text ++ ")" ↔ text = p.line) ∧
      ((∀ c ∈ p.line.toList, Text.isPlain c = true) → p.describe = "Point('" ++ p.line ++ "')") ∧
      ofLine (some p.line) = ⟨p, []⟩ := by
  intro words pairs p
  have hfst : (pairs.map fun (name, word) ↦ (name, readValue word)).map Prod.fst =
      pairs.map Prod.fst := List.map_map
  have horder : InOrder (p.given.map Prod.fst) (pairs.map Prod.fst) :=
    hfst ▸ inOrder_given_ofPairs _
  have hnodup : (p.given.map Prod.fst).Nodup := nodup_given_ofPairs _
  refine ⟨flatMap_pairUp words, fun name ↦ ?_, hnodup.filter _, fun name ↦ ?_,
    horder.ordered.filter _, rfl, p.describe_eq_iff, describe_of_isPlain,
    ofLine_line (fun name hname ↦ ?_) hnodup⟩
  · have hlookup : p.given.lookup name = (pairs.reverse.lookup name).map readValue := by
      refine (lookup_given_ofPairs _ name).trans ?_
      rw [← List.map_reverse]
      exact lookup_map_value (fun _ ↦ readValue) pairs.reverse name
    rw [get_eq, hlookup]
  · rw [names, List.mem_filter, horder.mem_iff]
    simp [isReserved]
  · exact isWord_of_mem_pairUp ((horder.mem_iff name).1 hname)

/-- A name that is given twice, a reserved name that is given, and a last word on its own. -/
theorem ofLine_lastWins_of_repeats :
    let p := (ofLine (some "x 1 e 2.5 y inf x -3 z")).value
    p.get "x" = -3 ∧ p.get "e" = 2.5 ∧ p.get "pi" = 3.141592653589793 ∧ p.get "z" = 0 ∧
      p.names = ["x", "y"] ∧ p.describe = "Point('x -3.0 e 2.5 y inf')" ∧
      (∀ text, p.describe = "Point(" ++ Text.quoted text ++ ")" ↔ text = "x -3.0 e 2.5 y inf") ∧
      ofLine (some "x -3.0 e 2.5 y inf") = ⟨p, []⟩ := by
  intro p
  obtain ⟨-, hget, -, -, -, -, hshown, hplain, hline⟩ :=
    ofLine_lastWins (some "x 1 e 2.5 y inf x -3 z")
  have htext : p.line = "x -3.0 e 2.5 y inf" := by decide +kernel
  rw [htext] at hshown hplain hline
  have hnames : p.names = ["x", "y"] := by decide +kernel
  have hchars : ∀ c ∈ "x -3.0 e 2.5 y inf".toList, Text.isPlain c = true :=
    List.all_eq_true.1 (by decide)
  exact ⟨(hget "x").trans (by decide +kernel), (hget "e").trans (by decide +kernel),
    (hget "pi").trans (by decide +kernel), (hget "z").trans (by decide +kernel), hnames,
    hplain hchars, hshown, hline⟩

end SymbolicDerivatives.Point
