import Restyle.Proofs.Class.Rename
import Restyle.Rule.ConstructorDefaults

/-!
# Classes that the rule works on

The rule moves the defaults of a class if there are any and its constructor, if it has one, has a
body. Whether that is so is told from the members alone, up to a renaming of nodes.
-/

namespace Restyle.ConstructorDefaults
variable {ms ns : List Member} {d : ClassDecl} {name : NodeId → NodeId}

/-- The default of a member that has to move. -/
def default? : Member → Option (Property × Initializer)
  | .property p =>
    match p.value with
    | some value => if p.isStatic || value.isNull then none else some (p, value)
    | none => none
  | _ => none

theorem movable_eq : movable d = d.members.filterMap default? := by
  rw [movable, ClassDecl.properties, List.filterMap_filterMap]
  congr 1
  funext m
  cases m <;> rfl

def constructorOf (ms : List Member) : Option Method :=
  (ms.filterMap Member.method?).find? Method.isConstructor

/-- The rule has something to move in a class with these members. -/
def Active (ms : List Member) : Prop :=
  ms.filterMap default? ≠ [] ∧ ∀ m ∈ constructorOf ms, m.body.isSome = true

theorem active_iff : Active d.members ↔
    movable d ≠ [] ∧ ∀ m ∈ d.constructor?, m.body.isSome = true := by
  rw [movable_eq]
  exact Iff.rfl

/-- The defaults that the rule moves: none if there is a constructor without a body. -/
def moved (d : ClassDecl) : List (Property × Initializer) :=
  if d.constructor?.all (·.body.isSome) then movable d else []

theorem mem_moved {x : Property × Initializer} :
    x ∈ moved d ↔ Active d.members ∧ x ∈ movable d := by
  have bodies : d.constructor?.all (·.body.isSome) = true ↔
      ∀ m ∈ constructorOf d.members, m.body.isSome = true := Option.all_eq_true ..
  rw [moved, Active, ← movable_eq, ← bodies]
  split
  · rename_i complete
    exact ⟨fun member => ⟨⟨List.ne_nil_of_mem member, complete⟩, member⟩, fun both => both.2⟩
  · rename_i incomplete
    simp [incomplete]

theorem moved_of_active (active : Active d.members) : moved d = movable d :=
  if_pos ((Option.all_eq_true ..).mpr active.2)

/-- The node stands between the variable and the semicolon of a default that the rule moves: that of
a property that is not static and not `null`, in a class whose constructor, if any, has a body. -/
def InDefault (c : Chain) (d : ClassDecl) (id : NodeId) : Prop :=
  ∃ p ∈ d.properties, ∃ value ∈ p.value, p.isStatic = false ∧ value.isNull = false ∧
    (∀ m ∈ d.constructor?, m.body.isSome = true) ∧
    [p.variableId, id, p.terminator].Sublist c.order

theorem mem_movable_iff {x : Property × Initializer} : x ∈ movable d ↔
    x.1 ∈ d.properties ∧ x.1.value = some x.2 ∧ x.1.isStatic = false ∧ x.2.isNull = false := by
  simp only [movable, List.mem_filterMap]
  constructor
  · rintro ⟨p, member, found⟩
    split at found
    · rename_i value has
      split at found
      · simp at found
      · rename_i moves
        obtain rfl := Option.some.inj found
        simp only [Bool.or_eq_true, not_or, Bool.not_eq_true] at moves
        exact ⟨member, has, moves⟩
    · simp at found
  · rintro ⟨member, has, notStatic, notNull⟩
    exact ⟨x.1, member, by simp [has, notStatic, notNull]⟩

theorem inDefault_iff {c : Chain} {id : NodeId} : InDefault c d id ↔
    ∃ x ∈ moved d, [x.1.variableId, id, x.1.terminator].Sublist c.order := by
  simp only [mem_moved, active_iff, mem_movable_iff]
  constructor
  · rintro ⟨p, member, value, has, notStatic, notNull, bodies, between⟩
    have moves : (p, value) ∈ movable d := mem_movable_iff.mpr ⟨member, has, notStatic, notNull⟩
    exact ⟨(p, value), ⟨⟨List.ne_nil_of_mem moves, bodies⟩, member, has, notStatic, notNull⟩, between⟩
  · rintro ⟨x, ⟨⟨-, bodies⟩, member, has, notStatic, notNull⟩, between⟩
    exact ⟨x.1, member, x.2, has, notStatic, notNull, bodies, between⟩

theorem default?_rename (m : Member) :
    default? (m.rename name) = (default? m).map fun x => (x.1.rename name, x.2.rename name) := by
  cases m with
  | method m => rfl
  | other => rfl
  | property p =>
    simp only [Member.rename, default?, Property.rename]
    cases value : p.value with
    | none => rfl
    | some v =>
      simp only [Option.map_some, Initializer.rename]
      split <;> simp_all

theorem defaults_rename : (ms.map (·.rename name)).filterMap default? =
    (ms.filterMap default?).map fun x => (x.1.rename name, x.2.rename name) := by
  rw [List.filterMap_map, List.map_filterMap]
  congr 1
  funext m
  exact default?_rename m

theorem constructorOf_rename :
    constructorOf (ms.map (·.rename name)) = (constructorOf ms).map (·.rename name) := by
  have methods : (ms.map (·.rename name)).filterMap Member.method? =
      (ms.filterMap Member.method?).map (·.rename name) := by
    rw [List.filterMap_map, List.map_filterMap]
    congr 1
    funext m
    cases m <;> rfl
  rw [constructorOf, methods, List.find?_map]
  rfl

theorem active_rename : Active (ms.map (·.rename name)) ↔ Active ms := by
  rw [Active, Active, defaults_rename, constructorOf_rename]
  refine and_congr (by simp) ?_
  cases constructorOf ms <;> simp [Method.rename]

/-- A renaming that names every node by itself changes nothing in a property. -/
theorem rename_id (p : Property) : p.rename id = p := by
  cases p with
  | mk start variableId name isStatic value terminator =>
    cases value <;> rfl

theorem eq_property_of_rename {m : Member} {p : Property} (same : m.rename id = .property p) :
    m = .property p := by
  cases m with
  | method m => cases same
  | other => cases same
  | property q =>
    rw [← rename_id q]
    exact same

theorem eq_property_of_property? {m : Member} {p : Property} (is : m.property? = some p) :
    m = .property p := by
  cases m with
  | method m => cases is
  | other => cases is
  | property q => rw [Option.some.inj is]

theorem defaults_rename_id : (ms.map (·.rename id)).filterMap default? = ms.filterMap default? := by
  rw [defaults_rename]
  refine (List.map_congr_left fun x _ => ?_).trans (List.map_id _)
  rw [rename_id]
  rfl

end Restyle.ConstructorDefaults
