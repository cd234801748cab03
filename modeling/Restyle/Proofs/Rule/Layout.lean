import Restyle.Proofs.Class.Defaults
import Restyle.Proofs.Class.Swap
import Restyle.Proofs.Rule.Active

/-!
# The defaults of a class body, one after another

The defaults of a body are taken out from the front to the back. `Layout` cuts the body at the
semicolons of the properties concerned, so that what is behind one of them does not depend on what
is done before it.
-/

namespace Restyle.ConstructorDefaults
open ClassDecl (IsDefault membersOf outline)
variable {c : Chain} {f f' g : Forest} {xs ys : List (Property × Initializer)}
  {x : Property × Initializer}

theorem eq_property_of_default {m : Member} (default : default? m = some x) :
    m = .property x.1 ∧ x.1.value = some x.2 := by
  cases m with
  | method m => simp [default?] at default
  | other => simp [default?] at default
  | property p =>
    cases value : p.value with
    | none => simp [default?, value] at default
    | some v =>
      simp only [default?, value, Option.ite_none_left_eq_some, Option.some.injEq] at default
      rw [← default.2]
      exact ⟨rfl, value⟩

def bare : Member → Member
  | .property p => .property { p with value := none }
  | m => m

theorem bare_rename (m : Member) : bare (m.rename id) = (bare m).rename id := by
  cases m <;> rfl

/-- The defaults of the body `f` start with `xs`, and `f'` is what is left without these. -/
inductive Layout (c : Chain) : Forest → List (Property × Initializer) → Forest → Prop
  | nil (f : Forest) : Layout c f [] f
  | cons (g lead core trail f f' : Forest) (x : Property × Initializer)
    (xs : List (Property × Initializer)) (done : List Member)
    (default : IsDefault c x.1 x.2 lead core trail) (plain : done.filterMap default? = [])
    (moves : default? (.property x.1) = some x)
    (here : membersOf c (g ++ .atom x.1.variableId
      ((lead ++ (core ++ trail)) ++ .atom x.1.terminator .nil)) = done ++ [.property x.1])
    (without : membersOf c (g ++ .atom x.1.variableId (.atom x.1.terminator .nil)) =
      done ++ [.property { x.1 with value := none }])
    (rest : Layout c f xs f') :
    Layout c (g ++ .atom x.1.variableId ((lead ++ (core ++ trail)) ++ .atom x.1.terminator f))
      (x :: xs) (g ++ .atom x.1.variableId (.atom x.1.terminator f'))

theorem exists_layout (fits : f.Fits c)
    (defaults : (membersOf c f).filterMap default? = xs ++ ys) : ∃ f', Layout c f xs f' := by
  induction xs generalizing f with
  | nil => exact ⟨f, .nil f⟩
  | cons x xs ih =>
    obtain ⟨done, m, rest, split, plain, moves, behind⟩ := List.filterMap_eq_cons_iff.mp defaults
    obtain ⟨rfl, value⟩ := eq_property_of_default moves
    obtain ⟨g, lead, core, trail, f₂, rfl, default, here, without, rfl⟩ :=
      ClassDecl.exists_default fits split value
    have fits₂ : f₂.Fits c := by
      simp only [Forest.fits_append, Forest.Fits] at fits
      exact fits.2.2.2.2
    obtain ⟨f', layout⟩ := ih fits₂ behind
    exact ⟨_, .cons g lead core trail f₂ f' x xs done default
      (List.filterMap_eq_nil_iff.mpr plain) moves here without layout⟩

namespace Layout

/-- A body is cut behind each of its defaults. -/
theorem cut {v t : NodeId} {m : Forest} (semicolon : c.tokenIs (·.isPunctuation ';') t = true) :
    membersOf c (g ++ .atom v (m ++ .atom t f)) =
      membersOf c (g ++ .atom v (m ++ .atom t .nil)) ++ membersOf c f := by
  have whole := ClassDecl.membersOf_semicolon (f := g ++ .atom v m) (g := f) semicolon
  simpa using whole

theorem defaults (layout : Layout c f xs f')
    (defaults : (membersOf c f).filterMap default? = xs ++ ys) :
    (membersOf c f').filterMap default? = ys := by
  induction layout with
  | nil f => exact defaults
  | cons g lead core trail f f' x xs done default plain moves here without rest ih =>
    rw [cut default.semicolon, here] at defaults
    have behind : (membersOf c f).filterMap default? = xs ++ ys := by
      simpa [plain, moves] using defaults
    have short := cut (c := c) (g := g) (f := f') (v := x.1.variableId) (m := .nil) default.semicolon
    simp only [Forest.nil_append] at short
    rw [short, without, List.filterMap_append, List.filterMap_append, plain, ih behind]
    rfl

theorem map_bare (layout : Layout c f xs f') : (membersOf c f').map bare = (membersOf c f).map bare := by
  induction layout with
  | nil f => rfl
  | cons g lead core trail f f' x xs done default plain moves here without rest ih =>
    have short := cut (c := c) (g := g) (f := f') (v := x.1.variableId) (m := .nil) default.semicolon
    simp only [Forest.nil_append] at short
    rw [short, cut default.semicolon, without, here, List.map_append, List.map_append, ih]
    simp [bare]

theorem outline_bare (layout : Layout c f xs f') :
    (outline c f').map bare = (outline c f).map bare := by
  have swap : ∀ ms : List Member, (ms.map (·.rename id)).map bare = (ms.map bare).map (·.rename id) := by
    intro ms
    simp only [List.map_map]
    exact List.map_congr_left fun m _ => bare_rename m
  rw [outline, outline, swap, swap, layout.map_bare]

theorem fits (layout : Layout c f xs f') (fits : f.Fits c) : f'.Fits c := by
  induction layout with
  | nil f => exact fits
  | cons g lead core trail f f' x xs done default plain moves here without rest ih =>
    simp only [Forest.fits_append, Forest.Fits] at fits ⊢
    exact ⟨fits.1, fits.2.1, fits.2.2.2.1, ih fits.2.2.2.2⟩

theorem variables_sublist (layout : Layout c f xs f') :
    (xs.map (·.1.variableId)).Sublist f.ids := by
  induction layout with
  | nil f => simp
  | cons g lead core trail f f' x xs done default plain moves here without rest ih =>
    simp only [List.map_cons, Forest.ids_append, Forest.ids]
    refine List.sublist_append_of_sublist_right (List.Sublist.cons_cons _ ?_)
    exact List.sublist_append_of_sublist_right (ih.cons _)

theorem ids_subset (layout : Layout c f xs f') : ∀ id ∈ f'.ids, id ∈ f.ids := by
  induction layout with
  | nil f => exact fun _ member => member
  | cons g lead core trail f f' x xs done default plain moves here without rest ih =>
    intro id member
    simp only [Forest.ids_append, Forest.ids, List.mem_append, List.mem_cons] at member ⊢
    rcases member with front | rfl | rfl | behind
    · exact .inl front
    · simp
    · simp
    · simp [ih id behind]

/-- The nodes of a default are not in what is left. -/
theorem not_mem (layout : Layout c f xs f') (nodup : f.ids.Nodup) (member : x ∈ xs)
    {y m z : List NodeId} (split : f.ids = y ++ x.1.variableId :: (m ++ x.1.terminator :: z)) :
    ∀ id ∈ m, id ∉ f'.ids := by
  induction layout generalizing y with
  | nil f => simp at member
  | cons g lead core trail f f' x' xs done default plain moves here without rest ih =>
    have ids : (g ++ .atom x'.1.variableId ((lead ++ (core ++ trail)) ++
        .atom x'.1.terminator f)).ids = g.ids ++ x'.1.variableId ::
          ((lead ++ (core ++ trail)).ids ++ x'.1.terminator :: f.ids) := by simp [Forest.ids]
    rw [ids] at split nodup
    obtain ⟨-, second, apart⟩ := List.nodup_append.mp nodup
    obtain ⟨variableOut, third⟩ := List.nodup_cons.mp second
    obtain ⟨-, fourth, apart'⟩ := List.nodup_append.mp third
    obtain ⟨semicolonOut, fifth⟩ := List.nodup_cons.mp fourth
    intro id inside member'
    simp only [Forest.ids_append, Forest.ids, List.mem_append, List.mem_cons] at member'
    rcases List.mem_cons.mp member with rfl | later
    · obtain ⟨-, tail⟩ := split_unique nodup rfl split
      obtain ⟨rfl, -⟩ := split_unique third rfl tail
      rcases member' with front | rfl | rfl | behind
      · exact apart id front id (List.mem_cons_of_mem _ (List.mem_append_left _ inside)) rfl
      · exact variableOut (List.mem_append_left _ inside)
      · exact apart' _ inside _ List.mem_cons_self rfl
      · exact apart' id inside id (List.mem_cons_of_mem _ (rest.ids_subset id behind)) rfl
    · have named : x.1.variableId ∈ f.ids :=
        rest.variables_sublist.subset (List.mem_map_of_mem later)
      obtain ⟨p, q, place⟩ := List.append_of_mem named
      have whole : g.ids ++ x'.1.variableId :: ((lead ++ (core ++ trail)).ids ++ x'.1.terminator :: f.ids) =
          (g.ids ++ x'.1.variableId :: ((lead ++ (core ++ trail)).ids ++ x'.1.terminator :: p)) ++
            x.1.variableId :: q := by simp [place]
      obtain ⟨-, rfl⟩ := split_unique nodup whole split
      have within : id ∈ f.ids := by simp [place, inside]
      rcases member' with front | rfl | rfl | behind
      · exact apart id front id (by simp [within]) rfl
      · exact variableOut (by simp [within])
      · exact semicolonOut within
      · exact ih fifth later place id inside behind

/-- The variable and the semicolon of a default that is gone stand side by side. -/
theorem adjacent (layout : Layout c f xs f') (member : x ∈ xs) :
    ∃ y z, f'.ids = y ++ x.1.variableId :: x.1.terminator :: z := by
  induction layout with
  | nil f => simp at member
  | cons g lead core trail f f' x' xs done default plain moves here without rest ih =>
    simp only [Forest.ids_append, Forest.ids]
    rcases List.mem_cons.mp member with rfl | later
    · exact ⟨_, _, rfl⟩
    · obtain ⟨y, z, same⟩ := ih later
      exact ⟨g.ids ++ x'.1.variableId :: x'.1.terminator :: y, z, by simp [same]⟩

end Layout

end Restyle.ConstructorDefaults
