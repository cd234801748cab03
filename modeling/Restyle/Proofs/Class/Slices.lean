import Restyle.Proofs.Class.Defaults

/-!
# Members by the places of their items

A member can also be told by counting: find the place of `function` or of the variable and cut the
items there. `byPlaces?` does so and fails where a cut would be out of range. But it never fails, and
it tells the same member (`byPlaces?_eq`): items that end with a semicolon have their variable before
the last one.
-/

namespace Restyle.Member
variable {α : Type} {c : Chain} {items run q : List Item} {x : Item}

/-- The part of a list from one place up to another. None if the first is behind the second or the
second is out of range. -/
def slice? (l : List α) (i j : Nat) : Option (List α) :=
  if i ≤ j ∧ j ≤ l.length then some ((l.take j).drop i) else none

/-- The member of these items, by the places of the first `function` and of the first variable. -/
def byPlaces? (c : Chain) (items : List Item) : Option Member :=
  match items.head? with
  | none => some .other
  | some start =>
    let atoms := items.filterMap Item.id?
    match atoms.findIdx? (c.tokenIs (·.isKeyword "function")) with
    | some place => do
      let after ← slice? atoms (place + 1) atoms.length
      let name := (after.find? (c.tokenIs isName)).map c.textOf
      let groups := items.filterMap Item.group?
      return .method {
        start := start.first, name := name.getD [], body := (groups.filter (isBraces c)).getLast? }
    | none =>
      match items.findIdx? (isAtom c isVariable) with
      | none => some .other
      | some place =>
        if atoms.any (c.tokenIs rulesOutProperty) then some .other
        else do
          let named ← items[place]?
          let final ← items[items.length - 1]?
          if !c.tokenIs (·.isPunctuation ';') final.last then return .other
          let modifiers ← slice? items 0 place
          let value ← slice? items (place + 1) (items.length - 1)
          return .property {
            start := start.first
            variableId := named.first
            name := (c.textOf named.first).dropWhile (· == '$')
            isStatic := modifiers.any (isAtom c (·.isKeyword "static"))
            value := valueOf c value
            terminator := final.last }

theorem slice?_append (l m r : List α) :
    slice? (l ++ m ++ r) l.length (l.length + m.length) = some m := by
  rw [slice?, if_pos (by simp only [List.length_append]; omega), ← List.length_append,
    List.take_left, List.drop_left]

/-! ### Single nodes among items -/

theorem any_atoms (p : Token → Bool) (items : List Item) :
    (items.filterMap Item.id?).any (c.tokenIs p) = items.any (isAtom c p) := by
  induction items with
  | nil => rfl
  | cons i items ih =>
    cases i with
    | atom id => simp only [List.filterMap_cons, Item.id?, List.any_cons, isAtom, ih]
    | group g => simp only [List.filterMap_cons, Item.id?, List.any_cons, isAtom, ih, Bool.false_or]

theorem find?_atoms (p : Token → Bool) (items : List Item) :
    ((items.filterMap Item.id?).find? (c.tokenIs p)) = (items.find? (isAtom c p)).map Item.first := by
  induction items with
  | nil => rfl
  | cons i items ih =>
    cases i with
    | group g => simpa only [List.filterMap_cons, Item.id?, List.find?_cons, isAtom] using ih
    | atom id =>
      simp only [List.filterMap_cons, Item.id?, List.find?_cons, isAtom]
      cases c.tokenIs p id with
      | true => rfl
      | false => exact ih

/-- What comes behind the first node of a kind can be cut off at its place. -/
theorem slice?_atoms {p : Token → Bool} {place : Nat}
    (found : (items.filterMap Item.id?).findIdx? (c.tokenIs p) = some place) :
    slice? (items.filterMap Item.id?) (place + 1) (items.filterMap Item.id?).length =
      some ((items.dropWhile fun i => !isAtom c p i).tail.filterMap Item.id?) := by
  induction items generalizing place with
  | nil => cases found
  | cons i items ih =>
    cases i with
    | group g => exact ih found
    | atom id =>
      simp only [List.filterMap_cons, Item.id?, List.findIdx?_cons] at found ⊢
      cases holds : c.tokenIs p id with
      | true =>
        rw [holds, if_pos rfl, Option.some.injEq] at found
        subst found
        have cut := slice?_append [id] (items.filterMap Item.id?) []
        simpa [isAtom, holds, Nat.add_comm] using cut
      | false =>
        rw [holds] at found
        obtain ⟨before, at', rfl⟩ := Option.map_eq_some_iff.mp (by simpa using found)
        have rest := ih at'
        simp only [slice?, List.length_cons] at rest ⊢
        simpa [isAtom, holds] using rest

theorem any_eq_isSome (p : Token → Bool) (items : List Item) :
    items.any (isAtom c p) = ((items.filterMap Item.id?).findIdx? (c.tokenIs p)).isSome := by
  rw [List.findIdx?_isSome, any_atoms]

/-- The place of the first variable. -/
theorem findIdx?_variable {modifiers rest : List Item} {v : NodeId}
    (plain : ∀ i ∈ modifiers, isAtom c isVariable i = false)
    (named : c.tokenIs isVariable v = true) :
    (modifiers ++ Item.atom v :: rest).findIdx? (isAtom c isVariable) = some modifiers.length := by
  induction modifiers with
  | nil => simp [List.findIdx?_cons, isAtom, named]
  | cons i modifiers ih =>
    have tail := ih fun j member => plain j (List.mem_cons_of_mem i member)
    rw [List.cons_append, List.findIdx?_cons, plain i List.mem_cons_self, tail]
    rfl

/-! ### The same members -/

theorem byPlaces?_method {start : Item} {place : Nat} (head : items.head? = some start)
    (found : (items.filterMap Item.id?).findIdx? (c.tokenIs (·.isKeyword "function")) = some place) :
    byPlaces? c items = some (.method (methodOf c start.first items)) := by
  simp only [byPlaces?, head, found, slice?_atoms found]
  simp only [bind, Option.bind, pure, find?_atoms, Option.map_map, methodOf]
  rfl

section Property
variable {start final : Item} (head : items.head? = some start) (last : items.getLast? = some final)
  (noFunction : (items.filterMap Item.id?).findIdx? (c.tokenIs (·.isKeyword "function")) = none)
include head last noFunction

theorem ofItems_eq_property :
    ofItems c items = ((propertyOf? c start.first items final).map .property).getD .other := by
  have absent := any_eq_isSome (c := c) (·.isKeyword "function") items
  rw [noFunction, Option.isSome_none] at absent
  simp only [ofItems, head, last, absent, Bool.false_eq_true, if_false]
  cases propertyOf? c start.first items final <;> rfl

theorem byPlaces?_quiet (plain : ∀ i ∈ items, isAtom c isVariable i = false) :
    byPlaces? c items = some (ofItems c items) := by
  have all : items.takeWhile (fun i => !isAtom c isVariable i) = items := by
    rw [← List.append_nil items, List.takeWhile_append_of_pos (by simpa using plain)]
    simp
  rw [ofItems_eq_property head last noFunction, propertyOf?, all, List.drop_length]
  simp only [byPlaces?, head, noFunction, List.findIdx?_eq_none_iff.mpr plain]
  rfl

theorem byPlaces?_variable {modifiers rest : List Item} {v : NodeId}
    (same : items = modifiers ++ Item.atom v :: rest)
    (plain : ∀ i ∈ modifiers, isAtom c isVariable i = false)
    (named : c.tokenIs isVariable v = true) : byPlaces? c items = some (ofItems c items) := by
  have place : items.findIdx? (isAtom c isVariable) = some modifiers.length := by
    rw [same, findIdx?_variable plain named]
  have variableAt : items[modifiers.length]? = some (.atom v) := by simp [same]
  have finalAt : items[items.length - 1]? = some final := by rw [← List.getLast?_eq_getElem?, last]
  have before : slice? items 0 modifiers.length = some modifiers := by
    have cut := slice?_append [] modifiers (Item.atom v :: rest)
    simpa [same] using cut
  have property : propertyOf? c start.first items final =
      if items.any (isAtom c rulesOutProperty) then none
      else if !c.tokenIs (·.isPunctuation ';') final.last then none
      else some {
        start := start.first
        variableId := v
        name := (c.textOf v).dropWhile (· == '$')
        isStatic := modifiers.any (isAtom c (·.isKeyword "static"))
        value := valueOf c rest.dropLast
        terminator := final.last } := by
    have modifiersOf : items.takeWhile (fun i => !isAtom c isVariable i) = modifiers := by
      rw [same, takeWhile_variable plain named]
    have behind : items.drop modifiers.length = Item.atom v :: rest := by rw [same, List.drop_left]
    simp only [propertyOf?, modifiersOf, behind, Item.first]
  rw [ofItems_eq_property head last noFunction, property]
  simp only [byPlaces?, head, noFunction, place, any_atoms, variableAt, finalAt, before]
  split
  · rfl
  · simp only [bind, Option.bind, pure]
    split
    · rfl
    · rename_i semicolon
      obtain ⟨q, x, concat⟩ := (List.eq_nil_or_concat items).resolve_left (by rintro rfl; simp at head)
      rw [List.concat_eq_append] at concat
      obtain rfl : x = final := by
        rw [concat, List.getLast?_concat] at last
        exact Option.some.inj last
      obtain ⟨between, rfl⟩ := exists_behind (concat.symm.trans same) named (by simpa using semicolon)
      have value : slice? items (modifiers.length + 1) (items.length - 1) = some between := by
        have cut := slice?_append (modifiers ++ [Item.atom v]) between [x]
        have length : (modifiers ++ [Item.atom v]).length + between.length = items.length - 1 := by
          simp only [same, List.length_append, List.length_cons, List.length_nil]
          omega
        rw [length] at cut
        simpa [same] using cut
      rw [value, List.dropLast_concat]
      rfl

end Property

/-- Cutting items by places never fails and tells the same member. -/
theorem byPlaces?_eq (c : Chain) (items : List Item) : byPlaces? c items = some (ofItems c items) := by
  rcases List.eq_nil_or_concat items with rfl | ⟨q, final, concat⟩
  · rfl
  rw [List.concat_eq_append] at concat
  obtain ⟨start, head⟩ : ∃ start, items.head? = some start := by
    rw [concat]
    cases q <;> simp
  have last : items.getLast? = some final := by rw [concat, List.getLast?_concat]
  cases found : (items.filterMap Item.id?).findIdx? (c.tokenIs (·.isKeyword "function")) with
  | some place =>
    have function := any_eq_isSome (c := c) (·.isKeyword "function") items
    rw [found, Option.isSome_some] at function
    rw [byPlaces?_method head found, ofItems, head, last]
    simp only [function, if_true]
  | none =>
    rcases quiet_or_cut (isAtom c isVariable) items with
      plain | ⟨modifiers, x, rest, same, plain, named⟩
    · exact byPlaces?_quiet head last found plain
    · cases x with
      | group g => cases named
      | atom v => exact byPlaces?_variable head last found same plain named

end Restyle.Member
