import Restyle.Proofs.Class.Decl

/-!
# Members as runs of items

The members of a class body are the runs of its items that end with a semicolon or braces. A list
of items can be cut where such a run ends (`runs_append_of_end`), and an item that is no filler is
found again in the forest (`exists_split`).
-/

namespace Restyle

namespace Member
variable {p : Item → Bool} {l m q : List Item} {x : Item}

theorem runs_of_quiet (quiet : ∀ i ∈ l, p i = false) : runs p l = [] := by
  have fold : ∀ current, (l.foldl (fun (state : List Item × List (List Item)) item =>
      if p item then ([], (item :: state.1).reverse :: state.2) else (item :: state.1, state.2))
      (current, [])).2 = [] := by
    induction l with
    | nil => simp
    | cons i l ih =>
      intro current
      rw [List.foldl_cons, quiet i List.mem_cons_self]
      exact ih (fun j member => quiet j (List.mem_cons_of_mem i member)) _
  exact List.reverse_eq_nil_iff.mpr (fold [])

/-- The first run goes up to the first item that ends one. -/
theorem runs_cut (quiet : ∀ i ∈ q, p i = false) (ends : p x = true) :
    runs p (q ++ x :: m) = (q ++ [x]) :: runs p m := by
  let step := fun (state : List Item × List (List Item)) item =>
    if p item then ([], (item :: state.1).reverse :: state.2) else (item :: state.1, state.2)
  -- Runs that are done stay behind the others.
  have done : ∀ l current older, (List.foldl step (current, older) l).2 =
      (List.foldl step (current, []) l).2 ++ older := by
    intro l
    induction l with
    | nil => simp
    | cons i l ih =>
      intro current older
      simp only [List.foldl_cons, step]
      split
      · rw [ih, ih _ [_]]
        simp
      · exact ih _ _
  have through : ∀ current, List.foldl step (current, []) q = (q.reverse ++ current, []) := by
    induction q with
    | nil => simp
    | cons i q ih =>
      intro current
      simp only [List.foldl_cons, step, quiet i List.mem_cons_self]
      exact (ih (fun j member => quiet j (List.mem_cons_of_mem i member)) _).trans (by simp)
  have whole : (List.foldl step ([], []) (q ++ x :: m)).2 =
      (List.foldl step ([], []) m).2 ++ [q ++ [x]] := by
    rw [List.foldl_append, through, List.foldl_cons, ← done]
    simp [step, ends]
  exact (congrArg List.reverse whole).trans (by simp [runs, step])

theorem quiet_or_cut (p : Item → Bool) (l : List Item) : (∀ i ∈ l, p i = false) ∨
    ∃ q x m, l = q ++ x :: m ∧ (∀ i ∈ q, p i = false) ∧ p x = true := by
  cases first : l.find? p with
  | none => exact .inl (by simpa using List.find?_eq_none.mp first)
  | some x =>
    obtain ⟨ends, q, m, rfl, quiet⟩ := List.find?_eq_some_iff_append.mp first
    exact .inr ⟨q, x, m, rfl, by simpa using quiet, ends⟩

/-- Runs that are complete are not changed by what follows. -/
theorem runs_append (p : Item → Bool) (l m : List Item) : ∃ more, runs p (l ++ m) = runs p l ++ more := by
  induction h : l.length using Nat.strong_induction_on generalizing l with
  | _ n ih =>
    subst h
    rcases quiet_or_cut p l with quiet | ⟨q, x, l, rfl, quiet, ends⟩
    · exact ⟨_, by rw [runs_of_quiet quiet, List.nil_append]⟩
    · obtain ⟨more, same⟩ := ih l.length (by simp; omega) l rfl
      refine ⟨more, ?_⟩
      rw [List.append_assoc, List.cons_append, runs_cut quiet ends, runs_cut quiet ends, same,
        List.cons_append]

theorem runs_append_of_end (ends : p x = true) :
    runs p ((l ++ [x]) ++ m) = runs p (l ++ [x]) ++ runs p m := by
  induction h : l.length using Nat.strong_induction_on generalizing l with
  | _ n ih =>
    subst h
    rcases quiet_or_cut p l with quiet | ⟨q, y, l, rfl, quiet, stop⟩
    · have none : runs p [] = [] := rfl
      rw [List.append_assoc, List.singleton_append, runs_cut quiet ends, runs_cut quiet ends, none,
        List.singleton_append]
    · have rest := ih l.length (by simp; omega) rfl
      simp only [List.append_assoc, List.cons_append] at rest ⊢
      rw [runs_cut quiet stop, runs_cut quiet stop, rest, List.cons_append]

/-- A run as a piece of the items. -/
theorem runs_eq_append {done rest : List (List Item)} {run : List Item}
    (same : runs p l = done ++ run :: rest) :
    ∃ before q x after, l = before ++ (q ++ [x]) ++ after ∧ run = q ++ [x] ∧
      (∀ i ∈ q, p i = false) ∧ p x = true ∧ runs p after = rest ∧
      ∀ other, runs p (before ++ other) = done ++ runs p other := by
  induction done generalizing l with
  | nil =>
    rcases quiet_or_cut p l with quiet | ⟨q, x, l, rfl, quiet, ends⟩
    · simp [runs_of_quiet quiet] at same
    · rw [runs_cut quiet ends, List.nil_append] at same
      obtain ⟨rfl, rfl⟩ := List.cons.inj same
      exact ⟨[], q, x, l, by simp, rfl, quiet, ends, rfl, by simp⟩
  | cons first done ih =>
    rcases quiet_or_cut p l with quiet | ⟨q, x, l, rfl, quiet, ends⟩
    · simp [runs_of_quiet quiet] at same
    · rw [runs_cut quiet ends, List.cons_append] at same
      obtain ⟨rfl, same'⟩ := List.cons.inj same
      obtain ⟨before, q', x', after, rfl, rfl, quiet', ends', runsAfter, runsBefore⟩ := ih same'
      refine ⟨q ++ x :: before, q', x', after, by simp, rfl, quiet', ends', runsAfter, ?_⟩
      intro other
      rw [List.append_assoc, List.cons_append, runs_cut quiet ends, runsBefore, List.cons_append]

/-! ### Properties and methods -/

section Property
variable {c : Chain} {modifiers rest run : List Item} {v t : NodeId} {start final : Item}
  {prop : Property}

def start? : Member → Option NodeId
  | property p => some p.start
  | method m => some m.start
  | other => none

theorem start?_ofItems {s : NodeId} (starts : (ofItems c run).start? = some s) :
    ∃ i, run.head? = some i ∧ s = i.first := by
  unfold ofItems at starts
  split at starts
  · rename_i start final head last
    refine ⟨start, head, ?_⟩
    split at starts
    · exact (Option.some.inj starts).symm
    · split at starts
      · rename_i p found
        unfold propertyOf? at found
        dsimp only at found
        split at found
        · cases found
        · split at found
          · cases found
          · split at found
            · cases found
            · obtain rfl := Option.some.inj found
              exact (Option.some.inj starts).symm
      · cases starts
  · cases starts

theorem takeWhile_variable (plain : ∀ i ∈ modifiers, isAtom c isVariable i = false)
    (named : c.tokenIs isVariable v = true) :
    (modifiers ++ Item.atom v :: rest).takeWhile (fun i => !isAtom c isVariable i) = modifiers := by
  rw [List.takeWhile_append_of_pos (by simpa using plain),
    List.takeWhile_cons_of_neg (by simp [isAtom, named]), List.append_nil]

/-- Modifiers, a variable, the rest and a semicolon. -/
theorem ofItems_variable (same : run = modifiers ++ Item.atom v :: (rest ++ [.atom t]))
    (plain : ∀ i ∈ modifiers, isAtom c isVariable i = false)
    (named : c.tokenIs isVariable v = true) (ends : c.tokenIs (·.isPunctuation ';') t = true)
    (first : (modifiers ++ [Item.atom v]).head? = some start) :
    ofItems c run =
      if run.any (isAtom c (·.isKeyword "function")) then .method (methodOf c start.first run)
      else if run.any (isAtom c rulesOutProperty) then .other
      else .property {
        start := start.first
        variableId := v
        name := (c.textOf v).dropWhile (· == '$')
        isStatic := modifiers.any (isAtom c (·.isKeyword "static"))
        value := valueOf c rest
        terminator := t } := by
  have head : run.head? = some start := by
    subst same
    cases modifiers <;> simpa using first
  have last : run.getLast? = some (.atom t) := by
    have concat : run = (modifiers ++ Item.atom v :: rest) ++ [.atom t] := by simp [same]
    rw [concat, List.getLast?_concat]
  have modifiersOf : run.takeWhile (fun i => !isAtom c isVariable i) = modifiers := by
    rw [same, takeWhile_variable plain named]
  have behind : run.drop modifiers.length = Item.atom v :: (rest ++ [.atom t]) := by
    rw [same, List.drop_left]
  simp only [ofItems, head, last, propertyOf?, modifiersOf, behind, Item.first, Item.last, ends,
    List.dropLast_concat]
  split
  · rfl
  · by_cases out : run.any (isAtom c rulesOutProperty) = true
    · simp [out]
    · simp [out]

theorem exists_variable (is : propertyOf? c t run final = some prop) :
    ∃ modifiers rest, run = modifiers ++ Item.atom prop.variableId :: rest ∧
      (∀ i ∈ modifiers, isAtom c isVariable i = false) ∧
      c.tokenIs isVariable prop.variableId = true ∧
      c.tokenIs (·.isPunctuation ';') final.last = true := by
  rcases quiet_or_cut (isAtom c isVariable) run with plain | ⟨modifiers, x, rest, rfl, plain, holds⟩
  · have all : run.takeWhile (fun i => !isAtom c isVariable i) = run := by
      rw [← List.append_nil run, List.takeWhile_append_of_pos (by simpa using plain)]
      simp
    simp [propertyOf?, all] at is
  · cases x with
    | group g => simp [isAtom] at holds
    | atom v =>
      simp only [propertyOf?, takeWhile_variable plain holds, List.drop_left,
        Option.ite_none_left_eq_some, Bool.not_eq_true', Bool.not_eq_false, Option.some.injEq] at is
      obtain ⟨-, ends, rfl⟩ := is
      exact ⟨modifiers, rest, rfl, plain, holds, ends⟩

/-- A semicolon at the end is behind the variable. -/
theorem exists_behind {q : List Item} {x : Item}
    (same : q ++ [x] = modifiers ++ Item.atom v :: rest) (named : c.tokenIs isVariable v = true)
    (semicolon : c.tokenIs (·.isPunctuation ';') x.last = true) :
    ∃ between, rest = between ++ [x] := by
  rcases List.eq_nil_or_concat rest with rfl | ⟨between, y, rfl⟩
  · obtain rfl : x = .atom v := by simpa using (List.append_inj' same rfl).2
    obtain ⟨t, token, mark⟩ := Chain.tokenIs_iff.mp semicolon
    simp only [Token.isPunctuation, Bool.and_eq_true, beq_iff_eq] at mark
    rw [Item.last] at token
    simp [Chain.tokenIs_of_token? token, isVariable, mark.1] at named
  · rw [List.concat_eq_append, ← List.cons_append, ← List.append_assoc] at same
    exact ⟨between, by rw [List.concat_eq_append, (List.append_inj' same rfl).2]⟩

/-- What the run of a property looks like, and what is left of it with less after the variable. -/
theorem ofItems_property {q : List Item} {x : Item}
    (braces : ∀ g, x = .group g → c.tokenIs (·.isPunctuation ';') g.closer = false)
    (is : ofItems c (q ++ [x]) = .property prop) :
    ∃ modifiers rest, q = modifiers ++ Item.atom prop.variableId :: rest ∧
      x = .atom prop.terminator ∧ c.tokenIs isVariable prop.variableId = true ∧
      c.tokenIs (·.isPunctuation ';') prop.terminator = true ∧ prop.value = valueOf c rest ∧
      ∀ less, less ⊆ rest → ofItems c (modifiers ++ Item.atom prop.variableId :: (less ++ [x])) =
        .property { prop with value := valueOf c less } := by
  obtain ⟨start, head⟩ : ∃ start, (q ++ [x]).head? = some start := by cases q <;> simp
  have found : propertyOf? c start.first (q ++ [x]) x = some prop := by
    simp only [ofItems, head, List.getLast?_concat] at is
    split at is
    · simp at is
    · split at is
      · rename_i p found
        cases is
        exact found
      · simp at is
  obtain ⟨modifiers, tail, same, plain, named, ends⟩ := exists_variable found
  cases x with
  | group g => simp [Item.last, braces g rfl] at ends
  | atom t =>
    have ends : c.tokenIs (·.isPunctuation ';') t = true := ends
    obtain ⟨rest, rfl⟩ := exists_behind same named ends
    obtain rfl : q = modifiers ++ Item.atom prop.variableId :: rest := by
      rw [← List.cons_append, ← List.append_assoc] at same
      exact List.append_cancel_right same
    obtain ⟨start', head'⟩ : ∃ start, (modifiers ++ [Item.atom prop.variableId]).head? = some start := by
      cases modifiers <;> simp
    rw [same, ofItems_variable rfl plain named ends head'] at is
    split at is
    · simp at is
    · rename_i noFunction
      split at is
      · simp at is
      · rename_i notOut
        have same' := Member.property.inj is
        refine ⟨modifiers, rest, rfl, ?_, named, ?_, ?_, ?_⟩
        · rw [← same']
        · rw [← same']
          exact ends
        · rw [← same']
        · intro less fewer
          have fewer' : modifiers ++ Item.atom prop.variableId :: (less ++ [Item.atom t]) ⊆
              modifiers ++ Item.atom prop.variableId :: (rest ++ [Item.atom t]) := by
            intro i member
            simp only [List.mem_append, List.mem_cons] at member ⊢
            have := @fewer i
            tauto
          have keep : ∀ f : Item → Bool,
              (modifiers ++ Item.atom prop.variableId :: (rest ++ [Item.atom t])).any f ≠ true →
              (modifiers ++ Item.atom prop.variableId :: (less ++ [Item.atom t])).any f ≠ true := by
            intro f none some
            obtain ⟨i, member, holds⟩ := List.any_eq_true.mp some
            exact none (List.any_eq_true.mpr ⟨i, fewer' member, holds⟩)
          rw [ofItems_variable rfl plain named ends head', if_neg (keep _ noFunction),
            if_neg (keep _ notOut), ← same']

end Property

end Member

/-! ### Items of a forest -/

namespace Forest
variable {c : Chain} {f g : Forest} {left right : List Item} {i : Item} {id : NodeId}

def significant (c : Chain) (f : Forest) : List Item := f.items.filter fun i => !Member.isFiller c i

@[simp] theorem significant_nil : nil.significant c = [] := rfl

@[simp] theorem significant_append : (f ++ g).significant c = f.significant c ++ g.significant c := by
  simp [significant]

theorem significant_atom (id : NodeId) (rest : Forest) :
    (atom id rest).significant c = (atom id nil).significant c ++ rest.significant c :=
  significant_append (f := atom id nil)

theorem mem_significant : i ∈ f.significant c ↔ i ∈ f.items ∧ Member.isFiller c i = false := by
  simp [significant]

theorem significant_of_mem (member : .atom id ∈ f.significant c) :
    (atom id nil).significant c = [.atom id] := by
  simp [significant, items, (mem_significant.mp member).2]

theorem exists_of_items (same : f.items = left ++ right) :
    ∃ f₁ f₂, f = f₁ ++ f₂ ∧ f₁.items = left ∧ f₂.items = right := by
  induction f generalizing left with
  | nil =>
    obtain ⟨rfl, rfl⟩ := List.append_eq_nil_iff.mp same.symm
    exact ⟨nil, nil, rfl, rfl, rfl⟩
  | atom id rest ih =>
    cases left with
    | nil => exact ⟨nil, atom id rest, rfl, rfl, same⟩
    | cons first left =>
      obtain ⟨rfl, tail⟩ := List.cons.inj same
      obtain ⟨f₁, f₂, rfl, rfl, rfl⟩ := ih tail
      exact ⟨atom id f₁, f₂, rfl, rfl, rfl⟩
  | group o inside e rest _ ih =>
    cases left with
    | nil => exact ⟨nil, group o inside e rest, rfl, rfl, same⟩
    | cons first left =>
      obtain ⟨rfl, tail⟩ := List.cons.inj same
      obtain ⟨f₁, f₂, rfl, rfl, rfl⟩ := ih tail
      exact ⟨group o inside e f₁, f₂, rfl, rfl, rfl⟩

/-- The place of an item in the forest. -/
theorem exists_item (member : i ∈ f.items) :
    ∃ f₁ g f₂, f = f₁ ++ (g ++ f₂) ∧ g.items = [i] := by
  obtain ⟨l, r, items⟩ := List.append_of_mem member
  obtain ⟨f₁, h, rfl, -, rest⟩ := exists_of_items items
  obtain ⟨g, f₂, rfl, single, -⟩ := exists_of_items (f := h) (List.singleton_append ▸ rest)
  exact ⟨f₁, g, f₂, rfl, single⟩

/-- The place of an item that belongs to a member. -/
theorem exists_split (same : f.significant c = left ++ i :: right) :
    ∃ f₁ g f₂, f = f₁ ++ (g ++ f₂) ∧ g.items = [i] ∧ f₁.significant c = left ∧
      f₂.significant c = right := by
  obtain ⟨l, m, split, rfl, tail⟩ := List.filter_eq_append_iff.mp same
  obtain ⟨fillers, n, rfl, skipped, -, rfl⟩ := List.filter_eq_cons_iff.mp tail
  obtain ⟨f₁, f₂, rfl, rfl, rest⟩ := exists_of_items split
  obtain ⟨h, f₃, rfl, rfl, behind⟩ := exists_of_items rest
  obtain ⟨g, f₂, rfl, single, rfl⟩ := exists_of_items (f := f₃) (List.singleton_append ▸ behind)
  refine ⟨f₁ ++ h, g, f₂, by simp, single, ?_, rfl⟩
  have none : h.significant c = [] := List.filter_eq_nil_iff.mpr skipped
  rw [significant_append, none, List.append_nil]
  rfl

theorem eq_atom_of_items (single : f.items = [.atom id]) : f = atom id nil := by
  cases f with
  | nil => simp [items] at single
  | group o inside e rest => simp [items] at single
  | atom id' rest =>
    obtain ⟨same, none⟩ := List.cons.inj single
    cases rest with
    | nil => rw [Item.atom.inj same]
    | atom _ _ => simp [items] at none
    | group _ _ _ _ => simp [items] at none

theorem eq_group_of_items {g : Group} (single : f.items = [.group g]) :
    ∃ inside, f = group g.opener inside g.closer nil := by
  cases f with
  | nil => simp [items] at single
  | atom id rest => simp [items] at single
  | group o inside e rest =>
    obtain ⟨same, none⟩ := List.cons.inj single
    cases rest with
    | nil => exact ⟨inside, by rw [← Item.group.inj same]; rfl⟩
    | atom _ _ => simp [items] at none
    | group _ _ _ _ => simp [items] at none

theorem ends_of_item (single : f.items = [i]) :
    f.ids.head? = some i.first ∧ f.ids.getLast? = some i.last := by
  cases i with
  | atom id =>
    rw [eq_atom_of_items single]
    exact ⟨rfl, rfl⟩
  | group g =>
    obtain ⟨inside, rfl⟩ := eq_group_of_items single
    refine ⟨rfl, ?_⟩
    rw [ids, ids, ← List.cons_append, List.getLast?_concat]
    rfl

/-- A forest without the fillers around it. -/
theorem exists_trim {first last : Item} (head : (f.significant c).head? = some first)
    (final : (f.significant c).getLast? = some last) :
    ∃ lead core trail, f = lead ++ (core ++ trail) ∧ lead.significant c = [] ∧
      trail.significant c = [] ∧ core.ids.head? = some first.first ∧
      core.ids.getLast? = some last.last := by
  obtain ⟨rest, same⟩ := List.head?_eq_some_iff.mp head
  have split : f.significant c = [] ++ first :: rest := same
  obtain ⟨lead, g, f₂, rfl, single, none, rfl⟩ := exists_split split
  rcases List.eq_nil_or_concat (f₂.significant c) with empty | ⟨l, x, concat⟩
  · obtain rfl : first = last := by
      rw [same, empty] at final
      exact Option.some.inj final
    exact ⟨lead, g, f₂, rfl, none, empty, ends_of_item single⟩
  · rw [List.concat_eq_append] at concat
    obtain ⟨h, g', trail, rfl, single', -, empty⟩ := exists_split concat
    obtain rfl : x = last := by
      rw [same, concat, ← List.cons_append, List.getLast?_concat] at final
      exact Option.some.inj final
    refine ⟨lead, g ++ (h ++ g'), trail, by simp, none, empty, ?_, ?_⟩
    · rw [ids_append, List.head?_append, (ends_of_item single).1]
      rfl
    · rw [ids_append, ids_append, List.getLast?_append, List.getLast?_append,
        (ends_of_item single').2]
      rfl

end Forest

end Restyle
