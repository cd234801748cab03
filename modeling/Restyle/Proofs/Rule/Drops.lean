import Restyle.Proofs.Rule.Invariant

/-!
# Taking the defaults of a class out

When it is the turn of a class, its defaults are where they were read, or the rule fails. Taking
them out one by one keeps the invariant.
-/

namespace Restyle.ConstructorDefaults
open RuleM
open ClassDecl (ClassAt HeaderAt IsDefault Walks membersOf ofClassAt outline)
variable {c₀ c d : Chain} {ds fin todo : List ClassDecl} {cls cls' : ClassDecl}
  {l r left mid right : List NodeId} {o e k b v t : NodeId} {f f' g m inside : Forest}
  {x : Property × Initializer} {xs : List (Property × Initializer)}

/-! ### Positions -/

theorem idxOf_lt_of_split {l y z : List NodeId} (nodup : l.Nodup) (split : l = y ++ k :: z)
    (behind : b ∈ z) : l.idxOf k < l.idxOf b := by
  subst split
  obtain ⟨-, nodup', apart⟩ := List.nodup_append.mp nodup
  have first : k ∉ y := fun member => apart k member k List.mem_cons_self rfl
  have second : b ∉ y := fun member => apart b member b (List.mem_cons_of_mem _ behind) rfl
  have different : b ≠ k := by
    rintro rfl
    exact (List.nodup_cons.mp nodup').1 behind
  simp [List.idxOf_append, first, second, different.symm]

theorem mem_of_idxOf_lt {l y z : List NodeId} (nodup : l.Nodup) (split : l = y ++ k :: z)
    (member : b ∈ l) (lt : l.idxOf k < l.idxOf b) : b ∈ z := by
  rw [split, List.mem_append, List.mem_cons] at member
  rcases member with before | rfl | behind
  · obtain ⟨y₁, y₂, rfl⟩ := List.append_of_mem before
    have gt := idxOf_lt_of_split (b := k) nodup (by simpa using split) (by simp)
    omega
  · omega
  · exact behind

theorem idxOf_lt_of_sublist {l : List NodeId} (nodup : l.Nodup) (sublist : [k, b].Sublist l) :
    l.idxOf k < l.idxOf b := by
  obtain ⟨l₁, l₂, rfl, first, second⟩ := List.cons_sublist_iff.mp sublist
  obtain ⟨y, z, rfl⟩ := List.append_of_mem first
  refine idxOf_lt_of_split (y := y) (z := z ++ l₂) nodup (by simp) ?_
  simp [List.singleton_sublist.mp second]

theorem sublist_of_between {y m z : List NodeId} (inside : b ∈ m) :
    [k, b, t].Sublist (y ++ k :: (m ++ t :: z)) := by
  refine List.sublist_append_of_sublist_right (.cons_cons _ ?_)
  exact List.Sublist.append (List.singleton_sublist.mpr inside)
    (List.singleton_sublist.mpr List.mem_cons_self)

theorem between_of_sublist {l y m z : List NodeId} (nodup : l.Nodup)
    (split : l = y ++ k :: (m ++ t :: z)) (sublist : [k, b, t].Sublist l) : b ∈ m := by
  have before := idxOf_lt_of_sublist nodup ((List.sublist_append_left [k, b] [t]).trans sublist)
  have after := idxOf_lt_of_sublist nodup ((List.sublist_cons_self k [b, t]).trans sublist)
  have member : b ∈ l := sublist.subset (by simp)
  have behind := mem_of_idxOf_lt nodup split member before
  rcases List.mem_append.mp behind with inside | late
  · exact inside
  · have split' : l = (y ++ k :: m) ++ t :: z := by simp [split]
    rcases List.mem_cons.mp late with rfl | late
    · omega
    · have := idxOf_lt_of_split nodup split' late
      omega

/-! ### Defaults that are where they were read -/

theorem dropDefault_between {w w' : Workspace} {p : Property} {u : Unit} (roomy : w.chain.Roomy)
    (order : w.chain.order = left ++ p.variableId :: (mid ++ p.terminator :: right))
    (ok : dropDefault cls p w = .ok u w') :
    Removed w.chain w'.chain (left ++ [p.variableId]) mid (p.terminator :: right) := by
  have member : p.variableId ∈ w.chain.order := by simp [order]
  obtain ⟨left', mid', right', -, removed⟩ := dropDefault_ok roomy (fun _ => member) ok
  have order' : w.chain.order = left' ++ p.variableId :: (mid' ++ p.terminator :: right') := by
    simp [removed.before]
  obtain ⟨rfl, rfl, rfl⟩ := between_unique roomy.wellFormed.order_nodup order order'
  exact removed

theorem Layout.drops {w w' : Workspace} (layout : Layout c f xs f') (roomy : w.chain.Roomy)
    (order : w.chain.order = left ++ (f.ids ++ right))
    (ok : xs.forM (fun x => dropDefault cls x.1) w = .ok () w') :
    w'.chain.Roomy ∧ (w.chain.Connected → w'.chain.Connected) ∧
      w'.chain.order = left ++ (f'.ids ++ right) ∧
      ∀ id, w'.chain.token? id = w.chain.token? id := by
  induction layout generalizing w left with
  | nil f =>
    obtain rfl := forM_nil_ok.mp ok
    exact ⟨roomy, id, order, fun _ => rfl⟩
  | cons g lead core trail f f' x xs done default plain moves here without rest ih =>
    obtain ⟨w₁, first, more⟩ := forM_cons_ok.mp ok
    have place : w.chain.order = (left ++ g.ids) ++ x.1.variableId ::
        ((lead ++ (core ++ trail)).ids ++ x.1.terminator :: (f.ids ++ right)) := by
      simp [order, Forest.ids]
    have removed := dropDefault_between roomy place first
    have after : w₁.chain.order =
        (left ++ g.ids ++ [x.1.variableId, x.1.terminator]) ++ (f.ids ++ right) := by
      simp [removed.order]
    obtain ⟨roomy', connected, order', tokens⟩ := ih removed.roomy after more
    exact ⟨roomy', fun whole => connected (removed.connected whole), by simp [order', Forest.ids],
      fun id => (tokens id).trans (removed.tokens id)⟩

/-! ### A default that is not there -/

/-- A default that is not there cannot be taken out. -/
theorem not_settled {w w' : Workspace} (sound : w.chain.Sound)
    (nodup : (xs.map (·.1.variableId)).Nodup)
    (ok : xs.forM (fun x => dropDefault cls x.1) w = .ok () w') (member : x ∈ xs) :
    ¬ Settled w.chain x.1.variableId x.1.terminator := by
  induction xs generalizing w with
  | nil => simp at member
  | cons y ys ih =>
    intro settled
    obtain ⟨w₁, first, more⟩ := forM_cons_ok.mp ok
    obtain ⟨left, mid, right, some, removed⟩ :=
      dropDefault_ok sound.toRoomy (sound.connected _).mp first
    have unique := sound.wellFormed.order_nodup
    have order : w.chain.order = left ++ y.1.variableId :: (mid ++ y.1.terminator :: right) := by
      simp [removed.before]
    rw [List.map_cons, List.nodup_cons] at nodup
    rcases List.mem_cons.mp member with rfl | later
    · rcases settled with out | ⟨a, b, place⟩
      · exact out (by simp [order])
      · obtain ⟨-, tail⟩ := split_unique unique order place
        obtain ⟨t, rest, rfl⟩ := List.exists_cons_of_ne_nil some
        obtain ⟨rfl, -⟩ := List.cons.inj tail
        rw [order, List.nodup_append, List.nodup_cons, List.cons_append, List.nodup_cons] at unique
        exact unique.2.1.2.1 (by simp)
    · refine ih (removed.sound sound) nodup.2 more later ?_
      have order' : w₁.chain.order = (left ++ [y.1.variableId]) ++ ([] ++ y.1.terminator :: right) :=
        removed.order
      refine settled.of_splice removed.before order' unique (by simp) ?_
      intro a b same _
      have named := (List.append_inj' same rfl).2
      refine nodup.1 (List.mem_map.mpr ⟨x, later, ?_⟩)
      exact (List.cons.inj named).1.symm

/-! ### The turn of a class -/

/-- The rule has come to the class `cls` of those that were read. -/
structure Turn (c₀ : Chain) (ds fin : List ClassDecl) (cls : ClassDecl) (todo : List ClassDecl) :
    Prop where
  base : c₀.Sound
  all : ClassDecl.all c₀ = .ok ds
  split : ds = fin ++ cls :: todo

namespace Turn
variable (turn : Turn c₀ ds fin cls todo)
include turn

theorem read (member : cls' ∈ ds) : ReadFrom c₀ cls' :=
  (ClassDecl.mem_all turn.base.wellFormed turn.all).mp member

theorem mem : cls ∈ ds := by simp [turn.split]

theorem mem_of_todo (later : cls' ∈ todo) : cls' ∈ ds := by simp [turn.split, later]

theorem keyword_lt {cls₁ cls₂ : ClassDecl} (sublist : [cls₁, cls₂].Sublist ds) :
    c₀.order.idxOf cls₁.keyword < c₀.order.idxOf cls₂.keyword :=
  idxOf_lt_of_sublist turn.base.wellFormed.order_nodup
    ((sublist.map ClassDecl.keyword).trans (ClassDecl.keywords_sublist turn.base.wellFormed turn.all))

theorem sublist_of_todo (later : cls' ∈ todo) : [cls, cls'].Sublist ds := by
  rw [turn.split]
  exact List.sublist_append_of_sublist_right
    (List.Sublist.cons_cons _ (List.singleton_sublist.mpr later))

theorem keyword_lt_of_todo (later : cls' ∈ todo) :
    c₀.order.idxOf cls.keyword < c₀.order.idxOf cls'.keyword :=
  turn.keyword_lt (turn.sublist_of_todo later)

/-- A class of which the keyword comes later is not done yet. -/
theorem mem_todo (member : cls' ∈ ds)
    (later : c₀.order.idxOf cls.keyword < c₀.order.idxOf cls'.keyword) : cls' ∈ todo := by
  rw [turn.split, List.mem_append, List.mem_cons] at member
  rcases member with earlier | rfl | inTodo
  · have before : c₀.order.idxOf cls'.keyword < c₀.order.idxOf cls.keyword := by
      refine turn.keyword_lt ?_
      rw [turn.split]
      exact List.Sublist.append (List.singleton_sublist.mpr earlier)
        (List.singleton_sublist.mpr List.mem_cons_self)
    omega
  · omega
  · exact inTodo

theorem mem_fin (earlier : [cls', cls].Sublist ds) : cls' ∈ fin := by
  have before := turn.keyword_lt earlier
  have member : cls' ∈ ds := earlier.subset (by simp)
  rw [turn.split, List.mem_append, List.mem_cons] at member
  rcases member with done | rfl | later
  · exact done
  · omega
  · have after := turn.keyword_lt_of_todo later
    omega

/-- A class comes in the order of its keyword, its braces and its defaults. -/
theorem default_order (member : cls' ∈ ds) (inside : x ∈ movable cls') :
    c₀.order.idxOf cls'.keyword < c₀.order.idxOf cls'.body.opener ∧
      c₀.order.idxOf cls'.body.opener < c₀.order.idxOf x.1.variableId := by
  have nodup := turn.base.wellFormed.order_nodup
  have standing : Standing c₀ c₀ ds cls' := (turn.read member).standing
  obtain ⟨l, body, r, more, stands⟩ := standing
  obtain ⟨f₁, m, f₂, -, -, rfl, -⟩ := stands.spans x inside
  refine ⟨?_, idxOf_lt_of_split nodup stands.group.order (by simp [Forest.ids])⟩
  obtain ⟨before, k, header, b, body, e, rest, at', rfl⟩ := turn.read member
  exact idxOf_lt_of_split nodup at'.order (by simp [ofClassAt, Group.opener])

/-- The braces of a class are not in a default of a later one. -/
theorem opener_not_mem (later : cls' ∈ todo) (member : x ∈ movable cls') {y z ids : List NodeId}
    (order : c₀.order = y ++ x.1.variableId :: (ids ++ x.1.terminator :: z)) :
    cls.body.opener ∉ ids := by
  intro inside
  have nodup := turn.base.wellFormed.order_nodup
  obtain ⟨toBrace, toDefault⟩ := turn.default_order (turn.mem_of_todo later) member
  have toOpener := idxOf_lt_of_split nodup order (List.mem_append_left _ inside)
  have keywords := turn.keyword_lt_of_todo later
  obtain ⟨before', k', header', b', body', e', rest', at', rfl⟩ := turn.read (turn.mem_of_todo later)
  obtain ⟨before, k, header, b, body, e, rest, at'', same⟩ := turn.read turn.mem
  subst same
  simp only [ofClassAt, Group.opener] at keywords toBrace toDefault toOpener
  -- The braces of the later class would be in the header of this one.
  have behind : b' ∈ header ++ b :: (body.ids ++ e :: rest) := by
    refine mem_of_idxOf_lt nodup at''.order (by simp [at'.order]) ?_
    omega
  have order' : c₀.order = (before ++ k :: header) ++ b :: (body.ids ++ e :: rest) := by
    simp [at''.order]
  rcases List.mem_append.mp behind with within | past
  · have quiet := at''.quiet b' within
    simp [ClassDecl.endsHeader_of_brace at'.brace] at quiet
  · rcases List.mem_cons.mp past with rfl | past
    · omega
    · have late := idxOf_lt_of_split nodup order' past
      omega

/-- One default is taken out. -/
theorem drop (inv : Inv c₀ ds fin todo c) (active : Active cls.members) (member : x ∈ movable cls)
    {lead core trail : Forest}
    (group : GroupAt c l cls.body.opener (g ++ .atom x.1.variableId
      ((lead ++ (core ++ trail)) ++ .atom x.1.terminator f)) cls.body.closer r)
    (default : IsDefault c x.1 x.2 lead core trail)
    (present : (outline c (g ++ .atom x.1.variableId
      ((lead ++ (core ++ trail)) ++ .atom x.1.terminator f))).filterMap default? ≠ [])
    (removed : Removed c d ((l ++ cls.body.opener :: g.ids) ++ [x.1.variableId])
      (lead ++ (core ++ trail)).ids (x.1.terminator :: (f.ids ++ cls.body.closer :: r))) :
    Allowed c₀ ds todo c d l cls.body.opener (g ++ .atom x.1.variableId .nil)
      (lead ++ (core ++ trail)) .nil (.atom x.1.terminator f) cls.body.closer r := by
  have fits := group.fits.2.1
  simp only [Forest.fits_append, Forest.Fits] at fits
  have order : c.order = (l ++ cls.body.opener :: g.ids) ++ x.1.variableId ::
      ((lead ++ (core ++ trail)).ids ++ x.1.terminator :: (f.ids ++ cls.body.closer :: r)) := by
    simp [group.order, Forest.ids]
  have fitsDefault : (lead ++ (core ++ trail)).Fits c := by simp [fits]
  have swap : Swap c d (l ++ cls.body.opener :: (g ++ .atom x.1.variableId .nil).ids)
      (lead ++ (core ++ trail)) .nil (x.1.terminator :: (f.ids ++ cls.body.closer :: r)) :=
    ⟨by simp [order, Forest.ids], by simp [removed.order, Forest.ids], fitsDefault, trivial,
      fun id _ => removed.tokens id⟩
  have some : (lead ++ (core ++ trail)).ids ≠ [] := by
    have inner := List.ne_nil_of_mem (List.mem_of_mem_head? default.starts)
    simp [inner]
  exact {
    group := by simpa using group
    guarded := ClassDecl.guarded_of_semicolon swap default.semicolon
    sound := removed.sound inv.sound
    tokens := fun id _ => removed.tokens id
    fresh := by simp [Forest.ids]
    apart := by
      intro v t y z _ semicolon _ same
      obtain ⟨first, rest, ids⟩ := List.exists_cons_of_ne_nil some
      rw [ids] at same
      obtain ⟨rfl, -⟩ := List.cons.inj same
      simp [ClassDecl.semicolon_of_head fitsDefault default.quiet ids] at semicolon
    known := (turn.read turn.mem).known turn.base
    concerns := .inr ⟨cls, turn.mem, active, rfl⟩
    enters := by simp [Forest.ids]
    done := by
      intro _ none
      exact (present (by simpa using none)).elim
    left := by
      intro cls' later active' same standing
      have members := (turn.read (turn.mem_of_todo later)).members_eq turn.base
        (turn.read turn.mem) same
      refine .inr ⟨⟨x, ?_, .inr ⟨l ++ cls.body.opener :: g.ids, f.ids ++ cls.body.closer :: r,
        by simpa using removed.order⟩⟩, cls, turn.sublist_of_todo later, active, .inl same.symm⟩
      rw [movable_eq, members, ← movable_eq]
      exact member
    takes := by
      intro cls' later inside
      refine ⟨cls, turn.sublist_of_todo later, active, .inr (inDefault_iff.mpr
        ⟨x, mem_moved.mpr ⟨active, member⟩, ?_⟩)⟩
      obtain ⟨first, last⟩ := (turn.read turn.mem).default_mem member
      have opener := (turn.read (turn.mem_of_todo later)).opener_mem
      refine inv.kept.sublist ?_ (by simp [first, last, opener])
      rw [order]
      exact sublist_of_between inside
    place := fun cls' later _ _ _ x' member' y z m order => turn.opener_not_mem later member' order
    copies := by simp [Forest.ids] }

/-- All defaults are taken out. What is in front of them, `p`, ends with a member. -/
theorem drops {c₁ : Chain} {w w' : Workspace} {p : Forest} (active : Active cls.members)
    (layout : Layout c₁ f xs f') (members : ∀ x ∈ xs, x ∈ movable cls)
    (cut : ∀ h, membersOf c₁ (p ++ h) = membersOf c₁ p ++ membersOf c₁ h)
    (same : ∀ id, w.chain.token? id = c₁.token? id) (inv : Inv c₀ ds fin todo w.chain)
    (group : GroupAt w.chain l cls.body.opener (p ++ f) cls.body.closer r)
    (ok : xs.forM (fun x => dropDefault cls x.1) w = .ok () w') :
    Inv c₀ ds fin todo w'.chain ∧
      GroupAt w'.chain l cls.body.opener (p ++ f') cls.body.closer r ∧
      ∀ id, w'.chain.token? id = c₁.token? id := by
  induction layout generalizing p w with
  | nil f =>
    obtain rfl := forM_nil_ok.mp ok
    exact ⟨inv, group, same⟩
  | cons g lead core trail f f' x xs done default plain moves here without rest ih =>
    obtain ⟨w₁, first, more⟩ := forM_cons_ok.mp ok
    have present : (outline w.chain ((p ++ g) ++ .atom x.1.variableId
        ((lead ++ (core ++ trail)) ++ .atom x.1.terminator f))).filterMap default? ≠ [] := by
      rw [Forest.append_assoc, ClassDecl.outline_congr fun id _ => same id, outline_eq, cut,
        Layout.cut default.semicolon, here, defaults_rename]
      simp [moves]
    have group' : GroupAt w.chain l cls.body.opener ((p ++ g) ++ .atom x.1.variableId
        ((lead ++ (core ++ trail)) ++ .atom x.1.terminator f)) cls.body.closer r := by
      simpa using group
    have place : w.chain.order = (l ++ cls.body.opener :: (p ++ g).ids) ++ x.1.variableId ::
        ((lead ++ (core ++ trail)).ids ++ x.1.terminator :: (f.ids ++ cls.body.closer :: r)) := by
      simp [group'.order, Forest.ids]
    have removed := dropDefault_between inv.sound.toRoomy place first
    have allowed := turn.drop inv active (members x List.mem_cons_self) group'
      (default.congr fun id _ => same id) present removed
    have cut' : ∀ h, membersOf c₁ ((p ++ (g ++ .atom x.1.variableId (.atom x.1.terminator .nil))) ++ h) =
        membersOf c₁ (p ++ (g ++ .atom x.1.variableId (.atom x.1.terminator .nil))) ++
          membersOf c₁ h := by
      intro h
      have whole := Layout.cut (c := c₁) (g := p ++ g) (f := h) (v := x.1.variableId) (m := .nil)
        default.semicolon
      simpa using whole
    have after := ih (fun y member => members y (List.mem_cons_of_mem _ member)) cut'
      (fun id => (removed.tokens id).trans (same id)) (inv.edited turn.base allowed)
      (by simpa using allowed.toEdited.here) more
    simpa using after

end Turn

end Restyle.ConstructorDefaults
