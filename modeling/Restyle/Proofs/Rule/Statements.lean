import Restyle.Proofs.Rule.Copies

/-!
# The values of a class and the statements made of them

The statements are made before the defaults are taken out. Each holds a copy of a value, and after
that nothing of the values is left in the chain (`Dropped`).
-/

namespace Restyle.ConstructorDefaults
open RuleM
open ClassDecl (IsDefault membersOf outline)
variable {c₀ c d : Chain} {ds fin todo : List ClassDecl} {cls : ClassDecl} {l r : List NodeId}
  {inside : Forest} {more : List Member} {x : Property × Initializer}

/-- The value of a class that is found as it was read is what it was. -/
theorem StandsAt.value (stands : StandsAt c₀ c ds cls l inside r more) (sound : c.Sound)
    (base : c₀.Sound) (tokens : ∀ id, c₀.Known id → c.token? id = c₀.token? id)
    (member : x ∈ movable cls) :
    ∃ f₁ lead core trail f₂ y₀ z₀, inside = f₁ ++ .atom x.1.variableId
        ((lead ++ (core ++ trail)) ++ .atom x.1.terminator f₂) ∧
      ValueAt c₀ x lead core trail y₀ z₀ ∧ core.Fits c ∧
      core.ids.map c.token? = core.ids.map c₀.token? := by
  have nodup := sound.wellFormed.order_nodup
  obtain ⟨done, rest, split, value⟩ := mem_movable member
  have same := stands.outline
  rw [split, List.map_append, List.append_assoc, List.map_cons, List.cons_append] at same
  have named : Member.rename id (.property x.1) = .property x.1 := by
    rw [Member.rename, rename_id]
  rw [named] at same
  obtain ⟨done', rest', members, -⟩ := outline_property same
  obtain ⟨f₁, lead, core, trail, f₂, here, default, -⟩ :=
    ClassDecl.exists_default stands.group.fits.2.1 members value
  obtain ⟨g₁, m, g₂, y₀, z₀, there, -, order⟩ := stands.spans x member
  -- Both say where the semicolon is.
  have ids : m.ids = (lead ++ (core ++ trail)).ids := by
    have place : inside.ids = f₁.ids ++ x.1.variableId ::
        ((lead ++ (core ++ trail)).ids ++ x.1.terminator :: f₂.ids) := by simp [here, Forest.ids]
    have place' : inside.ids = g₁.ids ++ x.1.variableId :: (m.ids ++ x.1.terminator :: g₂.ids) := by
      simp [there, Forest.ids]
    have once : inside.ids.Nodup := by
      rw [stands.group.order] at nodup
      exact (List.nodup_append.mp (List.nodup_cons.mp (List.nodup_append.mp nodup).2.1).2).1
    exact (between_unique once place' place).2.1
  rw [ids] at order
  have known : ∀ id ∈ c₀.order, c.token? id = c₀.token? id := fun id inside =>
    tokens id (base.wellFormed.known_of_mem_order inside)
  have kept : ∀ id ∈ x.1.variableId :: x.1.terminator :: (lead ++ (core ++ trail)).ids,
      c₀.token? id = c.token? id := by
    intro id inside
    refine (known id ?_).symm
    rw [order]
    simp only [List.mem_append, List.mem_cons] at inside ⊢
    tauto
  have fits : (lead ++ (core ++ trail)).Fits c := by
    have fits := stands.group.fits.2.1
    rw [here] at fits
    simp only [Forest.fits_append, Forest.Fits] at fits ⊢
    exact fits.2.2.1
  refine ⟨f₁, lead, core, trail, f₂, y₀, z₀, here, ⟨default.congr kept, ?_, order⟩, ?_, ?_⟩
  · rw [Forest.fits_congr fun id inside =>
      kept id (List.mem_cons_of_mem _ (List.mem_cons_of_mem _ inside))]
    exact fits
  · exact (Forest.fits_append.mp (Forest.fits_append.mp fits).2).1
  · exact List.map_congr_left fun id inside => (kept id (by simp [inside])).symm

theorem StandsAt.statement (stands : StandsAt c₀ c ds cls l inside r more) (sound : c.Sound)
    (base : c₀.Sound) (tokens : ∀ id, c₀.Known id → c.token? id = c₀.token? id)
    (member : x ∈ movable cls) {indent : Text} {s : List Token}
    (ok : assignment c indent x.1 x.2 = .ok s) : IsStatement s ∧ Traced (IsCopy c₀ cls) s := by
  obtain ⟨f₁, lead, core, trail, f₂, y₀, z₀, rfl, value, fits, same⟩ :=
    stands.value sound base tokens member
  have order : c.order = (l ++ cls.body.opener :: (f₁.ids ++ x.1.variableId :: lead.ids)) ++ core.ids ++
      (trail.ids ++ x.1.terminator :: (f₂.ids ++ cls.body.closer :: r)) := by
    simp [stands.group.order, Forest.ids]
  have span := sound.wellFormed.span_of_order order value.default.starts value.default.ends
  refine ⟨isStatement_assignment ok span fits, ?_⟩
  obtain ⟨ids, ts, source, span', tokensOf, rfl⟩ := assignment_ok ok
  rw [span] at span'
  obtain rfl := Except.ok.inj span'
  have copy : IsCopy c₀ cls (ts.map (reindent source indent)) :=
    ⟨x, member, lead, core, trail, y₀, z₀, ts, source, indent, value, same ▸ tokensOf, rfl⟩
  have front : Traced (IsCopy c₀ cls) [.classify .variableName "$this".toList, operator "->",
      identifier x.1.name, space, operator "=", space] := by
    refine .of_plain fun t inside => ?_
    have kind : t.kind ≠ .keyword := by
      simp only [List.mem_cons, List.not_mem_nil, or_false] at inside
      rcases inside with rfl | rfl | rfl | rfl | rfl | rfl <;>
        exact Token.classify_ne _ (by decide) (by decide)
    simp [Token.isKeyword, kind]
  rw [List.append_assoc]
  exact front.append (.of_copy copy)

/-! ### When the defaults are out -/

/-- The defaults of the class are taken out, and the class is otherwise what it was. -/
structure Dropped (c₀ : Chain) (ds fin : List ClassDecl) (cls : ClassDecl) (todo : List ClassDecl)
    (c : Chain) (l : List NodeId) (inside : Forest) (r : List NodeId) (more : List Member) : Prop where
  inv : Inv c₀ ds fin todo c
  group : GroupAt c l cls.body.opener inside cls.body.closer r
  plain : (∀ e, ¬ Target ds cls.body.opener e) → (outline c inside).filterMap default? = []
  members : (outline c inside).map bare = (cls.members.map (·.rename id) ++ more).map bare
  gone : Gone c cls
  out : ∀ id, InDefault c₀ cls id → id ∉ c.order

theorem Dropped.values (dropped : Dropped c₀ ds fin cls todo c l inside r more)
    (active : Active cls.members) (member : x ∈ movable cls) {lead core trail : Forest}
    {y₀ z₀ : List NodeId} (value : ValueAt c₀ x lead core trail y₀ z₀) :
    ∀ id ∈ core.ids, id ∉ c.order := by
  intro id inCore
  refine dropped.out id (inDefault_iff.mpr ⟨x, mem_moved.mpr ⟨active, member⟩, ?_⟩)
  rw [value.order]
  exact sublist_of_between (by simp [inCore])

/-- A class whose braces the class takes cannot be worked on. -/
theorem Dropped.taken (dropped : Dropped c₀ ds fin cls todo c l inside r more)
    (turn : Turn c₀ ds fin cls todo) {cls' : ClassDecl} (later : cls' ∈ todo)
    (active : Active cls'.members) (takes : Takes c₀ cls cls') : Gone c cls' := by
  rcases takes with same | inDefault
  · have members := (turn.read (turn.mem_of_todo later)).members_eq turn.base (turn.read turn.mem)
      same.symm
    obtain ⟨x, member, settled⟩ := dropped.gone
    refine ⟨x, ?_, settled⟩
    rw [movable_eq, members, ← movable_eq]
    exact member
  · rcases dropped.inv.left cls' later active with standing | ⟨gone, -⟩
    · obtain ⟨l', inside', r', more', stands⟩ := standing
      exact (dropped.out _ inDefault (by simp [stands.group.order])).elim
    · exact gone

theorem Turn.variables_nodup (turn : Turn c₀ ds fin cls todo) :
    ((movable cls).map (·.1.variableId)).Nodup := by
  obtain ⟨l, inside, r, group, members⟩ := (turn.read turn.mem).groupAt
  have defaults : (membersOf c₀ inside).filterMap default? = movable cls ++ [] := by
    rw [← members, movable_eq, List.append_nil]
  obtain ⟨f', layout⟩ := exists_layout group.fits.2.1 defaults
  have nodup := turn.base.wellFormed.order_nodup
  rw [group.order] at nodup
  exact (List.nodup_append.mp (List.nodup_cons.mp (List.nodup_append.mp nodup).2.1).2).1.sublist
    layout.variables_sublist

/-- A class whose defaults can be taken out is there. -/
theorem Turn.standing (turn : Turn c₀ ds fin cls todo) {w w' : Workspace}
    (inv : Inv c₀ ds fin (cls :: todo) w.chain) (active : Active cls.members)
    (ok : (movable cls).forM (fun x => dropDefault cls x.1) w = .ok () w') :
    Standing c₀ w.chain ds cls := by
  rcases inv.left cls List.mem_cons_self active with standing | ⟨⟨x, member, settled⟩, -⟩
  · exact standing
  · exact (not_settled inv.sound turn.variables_nodup ok member settled).elim

theorem StandsAt.defaults (stands : StandsAt c₀ c ds cls l inside r more) :
    (membersOf c inside).filterMap default? = movable cls ++ more.filterMap default? := by
  rw [← defaults_rename_id, ← outline_eq, stands.outline, List.filterMap_append,
    defaults_rename_id, movable_eq]

theorem Turn.dropped (turn : Turn c₀ ds fin cls todo) {w w' : Workspace}
    (inv : Inv c₀ ds fin (cls :: todo) w.chain) (active : Active cls.members)
    (stands : StandsAt c₀ w.chain ds cls l inside r more)
    (ok : (movable cls).forM (fun x => dropDefault cls x.1) w = .ok () w') :
    ∃ inside', Dropped c₀ ds fin cls todo w'.chain l inside' r more := by
  have nodup := inv.sound.wellFormed.order_nodup
  have present : ¬ Gone w.chain cls := by
    rintro ⟨x, member, settled⟩
    exact not_settled inv.sound turn.variables_nodup ok member settled
  obtain ⟨f', layout⟩ := exists_layout stands.group.fits.2.1 stands.defaults
  obtain ⟨inv', group, tokens⟩ := turn.drops (p := .nil) active layout (fun _ member => member)
    (fun h => rfl) (fun _ => rfl) (inv.next fun _ => present) stands.group ok
  have outlines : outline w'.chain f' = outline w.chain f' :=
    ClassDecl.outline_congr fun id _ => tokens id
  refine ⟨f', inv', group, ?_, ?_, ?_, ?_⟩
  · intro noTarget
    rw [outlines, outline_eq, defaults_rename_id, layout.defaults stands.defaults,
      stands.whole noTarget]
    rfl
  · rw [outlines, ← stands.outline, layout.outline_bare]
  · obtain ⟨x, member⟩ := List.exists_mem_of_ne_nil _ (movable_eq ▸ active.1)
    obtain ⟨y, z, ids⟩ := layout.adjacent member
    exact ⟨x, member, .inr ⟨l ++ cls.body.opener :: y, z ++ cls.body.closer :: r,
      by simp [group.order, ids]⟩⟩
  · intro id inDefault present'
    obtain ⟨p, moves, between⟩ := inDefault_iff.mp inDefault
    have member := (mem_moved.mp moves).2
    obtain ⟨g₁, m, g₂, y₁, z₁, rfl, -, order⟩ := stands.spans p member
    have inMiddle := between_of_sublist turn.base.wellFormed.order_nodup order between
    have place : (g₁ ++ .atom p.1.variableId (m ++ .atom p.1.terminator g₂)).ids =
        g₁.ids ++ p.1.variableId :: (m.ids ++ p.1.terminator :: g₂.ids) := by simp [Forest.ids]
    have before := stands.group.order
    have after := group.order
    rw [← List.singleton_append, ← List.append_assoc] at before after
    refine not_mem_of_splice before after nodup ?_ (.inr ?_) present'
    · refine layout.not_mem ?_ member place id inMiddle
      rw [before] at nodup
      exact (List.nodup_append.mp (List.nodup_append.mp nodup).2.1).1
    · simp [place, inMiddle]

end Restyle.ConstructorDefaults
