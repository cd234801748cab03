import Restyle.Proofs.Rule.Edited
import Restyle.Proofs.Rule.Layout

/-!
# What the rule keeps while it works

The rule reads all classes first and then works on one after another. `Inv` says how the chain at
such a point is related to the one the classes were read from, and `Inv.edited` that every edit
keeps it.
-/

namespace Restyle.ConstructorDefaults
open ClassDecl (ClassAt HeaderAt Walks membersOf ofClassAt outline)
variable {c₀ c d : Chain} {ds fin todo : List ClassDecl} {cls cls' : ClassDecl}
  {l r : List NodeId} {o e k b v t : NodeId} {f₁ old new f₂ inside : Forest}
  {x : Property × Initializer}

/-! ### Classes and their defaults -/

theorem mem_movable (member : x ∈ movable cls) :
    ∃ done rest, cls.members = done ++ .property x.1 :: rest ∧ x.1.value = some x.2 := by
  rw [movable_eq] at member
  obtain ⟨m, inside, default⟩ := List.mem_filterMap.mp member
  obtain ⟨rfl, value⟩ := eq_property_of_default default
  obtain ⟨done, rest, split⟩ := List.append_of_mem inside
  exact ⟨done, rest, split, value⟩

/-- A property in the outline is a property of the body. -/
theorem outline_property {p : Property} {a z : List Member}
    (same : outline c inside = a ++ .property p :: z) :
    ∃ done rest, membersOf c inside = done ++ .property p :: rest ∧ done.map (·.rename id) = a ∧
      rest.map (·.rename id) = z := by
  obtain ⟨done, tail, split, front, behind⟩ := List.map_eq_append_iff.mp same
  obtain ⟨m, rest, rfl, is, back⟩ := List.map_eq_cons_iff.mp behind
  obtain rfl := eq_property_of_rename is
  exact ⟨done, rest, split, front, back⟩

def ReadFrom (c₀ : Chain) (cls : ClassDecl) : Prop :=
  ∃ before k header b inside e rest,
    ClassAt c₀ before k header b inside e rest ∧ cls = ofClassAt c₀ k header b inside e

theorem ReadFrom.groupAt (read : ReadFrom c₀ cls) : ∃ l inside r,
    GroupAt c₀ l cls.body.opener inside cls.body.closer r ∧ cls.members = membersOf c₀ inside := by
  obtain ⟨before, k, header, b, inside, e, rest, at', rfl⟩ := read
  exact ⟨before ++ k :: header, inside, rest, ⟨by simp [at'.order, ofClassAt, Group.opener, Group.closer],
    at'.fits⟩, rfl⟩

/-- A default was read between a variable and a semicolon. -/
theorem ReadFrom.default (read : ReadFrom c₀ cls) (member : x ∈ movable cls) :
    c₀.tokenIs Member.isVariable x.1.variableId = true ∧
      c₀.tokenIs (·.isPunctuation ';') x.1.terminator = true := by
  obtain ⟨l, inside, r, at', members⟩ := read.groupAt
  obtain ⟨done, rest, split, -⟩ := mem_movable member
  rw [members] at split
  obtain ⟨f₁, m, f₂, -, isVariable, semicolon, -⟩ := ClassDecl.exists_property at'.fits.2.1 split
  exact ⟨isVariable, semicolon⟩

/-- The nodes of a default that has to move. -/
theorem ReadFrom.span (read : ReadFrom c₀ cls) (wf : c₀.WellFormed) (member : x ∈ movable cls) :
    ∃ core : Forest, core.Fits c₀ ∧ c₀.span x.2.first x.2.last = .ok core.ids := by
  obtain ⟨l, inside, r, group, members⟩ := read.groupAt
  obtain ⟨done, rest, split, value⟩ := mem_movable member
  rw [members] at split
  have fits := group.fits.2.1
  obtain ⟨f₁, lead, core, trail, f₂, rfl, default, -⟩ := ClassDecl.exists_default fits split value
  have order : c₀.order = (l ++ cls.body.opener :: (f₁.ids ++ x.1.variableId :: lead.ids)) ++
      core.ids ++ (trail.ids ++ x.1.terminator :: (f₂.ids ++ cls.body.closer :: r)) := by
    simp [group.order, Forest.ids]
  simp only [Forest.fits_append, Forest.Fits] at fits
  exact ⟨core, fits.2.2.1.2.1, wf.span_of_order order default.starts default.ends⟩

/-! ### The state of the work -/

/-- Braces to which the rule adds statements. -/
def Target (ds : List ClassDecl) (o e : NodeId) : Prop :=
  ∃ cls ∈ ds, Active cls.members ∧
    ∃ m ∈ cls.constructor?, ∃ body ∈ m.body, body.opener = o ∧ body.closer = e

/-- The word `class` has braces of such a body in what is read as its header. -/
def Exposed (c₀ : Chain) (ds : List ClassDecl) (k : NodeId) : Prop :=
  k ∈ c₀.order ∧ ∃ o e, Target ds o e ∧
    (o ∈ (ClassDecl.header c₀ k).toList ∨ e ∈ (ClassDecl.header c₀ k).toList)

/-- When the rule has worked on `cls'`, the braces of `cls` are gone or have no defaults. -/
def Takes (c₀ : Chain) (cls' cls : ClassDecl) : Prop :=
  cls'.body.opener = cls.body.opener ∨ InDefault c₀ cls' cls.body.opener

/-- An earlier class takes the braces of this one. -/
def Shadowed (c₀ : Chain) (ds : List ClassDecl) (cls : ClassDecl) : Prop :=
  ∃ cls', [cls', cls].Sublist ds ∧ Active cls'.members ∧ Takes c₀ cls' cls

/-- Some default that the rule would move is not there. -/
def Gone (c : Chain) (cls : ClassDecl) : Prop :=
  ∃ x ∈ movable cls, Settled c x.1.variableId x.1.terminator

/-- The nodes between the variable and the semicolon of a property are what they were at the
start. -/
def Spans (c₀ : Chain) (inside : Forest) (p : Property) : Prop :=
  ∃ f₁ m f₂ y z, inside = f₁ ++ .atom p.variableId (m ++ .atom p.terminator f₂) ∧ m.ids ≠ [] ∧
    c₀.order = y ++ p.variableId :: (m.ids ++ p.terminator :: z)

/-- The class is still found as it was read, perhaps with more members at its end if its braces are
also those of a constructor. -/
structure StandsAt (c₀ c : Chain) (ds : List ClassDecl) (cls : ClassDecl) (l : List NodeId)
    (inside : Forest) (r : List NodeId) (more : List Member) : Prop where
  group : GroupAt c l cls.body.opener inside cls.body.closer r
  outline : outline c inside = cls.members.map (·.rename id) ++ more
  whole : (∀ e, ¬ Target ds cls.body.opener e) → more = []
  spans : ∀ x ∈ movable cls, Spans c₀ inside x.1

def Standing (c₀ c : Chain) (ds : List ClassDecl) (cls : ClassDecl) : Prop :=
  ∃ l inside r more, StandsAt c₀ c ds cls l inside r more

/-- The classes of `fin` are done and those of `todo` are not. -/
structure Inv (c₀ : Chain) (ds fin todo : List ClassDecl) (c : Chain) : Prop
    extends Continues c₀ c where
  reads : ∀ cls ∈ fin ++ todo, ReadFrom c₀ cls
  /-- A header was there at the start, or it ends in new nodes. -/
  headers : ∀ before k header b rest, HeaderAt c before k header b rest →
    (∃ before' rest', HeaderAt c₀ before' k header b rest') ∨
      ¬ c₀.Known b ∧ (¬ c₀.Known k ∨ Exposed c₀ ds k)
  walks : ∀ before k header x rest, Walks c before k header x rest → c₀.Known x →
    c₀.tokenIs (·.isPunctuation ';') x = false → ∃ before' rest', Walks c₀ before' k header x rest'
  closed : ∀ before k header b rest, HeaderAt c before k header b rest →
    ∃ l inside e r, GroupAt c l b inside e r
  /-- Braces that are none of the rule's business hold the members they held. -/
  quiet : ∀ l b inside e r, GroupAt c l b inside e r → c₀.Known b → (∀ e, ¬ Target ds b e) →
    (∀ cls ∈ ds, Active cls.members → cls.body.opener ≠ b) →
    ∃ l₀ inside₀ r₀, GroupAt c₀ l₀ b inside₀ e r₀ ∧ outline c inside = outline c₀ inside₀
  done : ∀ cls ∈ fin, Active cls.members → (∀ e, ¬ Target ds cls.body.opener e) →
    ∀ l inside e r, GroupAt c l cls.body.opener inside e r →
      (outline c inside).filterMap default? = []
  left : ∀ cls ∈ todo, Active cls.members →
    Standing c₀ c ds cls ∨ Gone c cls ∧ Shadowed c₀ ds cls
  taken : ∀ cls' ∈ fin, Active cls'.members → ∀ cls ∈ todo, Active cls.members →
    Takes c₀ cls' cls → Gone c cls
  /-- A copied class that the rule would work on is copied from one that it will fail on. -/
  copies : ∀ before k header b rest, HeaderAt c before k header b rest → ¬ c₀.Known k →
    ∀ l inside e r, GroupAt c l b inside e r → Active (outline c inside) →
      ∃ cls ∈ todo, Active cls.members ∧ Gone c cls

theorem Standing.not_gone (standing : Standing c₀ c ds cls) (nodup : c.order.Nodup) : ¬ Gone c cls := by
  rintro ⟨x, member, settled⟩
  obtain ⟨l, inside, r, more, stands⟩ := standing
  obtain ⟨f₁, m, f₂, -, -, rfl, some, -⟩ := stands.spans x member
  have order : c.order = (l ++ cls.body.opener :: f₁.ids) ++
      x.1.variableId :: (m.ids ++ x.1.terminator :: (f₂.ids ++ cls.body.closer :: r)) := by
    simp [stands.group.order, Forest.ids]
  rcases settled with out | ⟨y', z', order'⟩
  · exact out (by simp [order])
  · obtain ⟨-, tail⟩ := split_unique nodup order order'
    rw [order, List.nodup_append, List.nodup_cons] at nodup
    cases ids : m.ids with
    | nil => exact some ids
    | cons first rest =>
      rw [ids] at tail nodup
      obtain ⟨rfl, -⟩ := List.cons.inj tail
      have twice := (List.nodup_cons.mp nodup.2.1.2).1
      simp at twice

/-! ### One edit -/

/-- A change inside a group does not concern the properties next to it. -/
theorem Spans.refill {p : Property} {before after : Forest} {hole : Forest.Hole} {o' e' : NodeId}
    (spans : Spans c₀ (before ++ .group o' (hole.fill old) e' after) p)
    (inner : o ∈ o' :: hole.idsBefore)
    (place : ∀ y z, ∀ m : Forest, c₀.order = y ++ p.variableId :: (m.ids ++ p.terminator :: z) →
      o ∉ m.ids) :
    Spans c₀ (before ++ .group o' (hole.fill new) e' after) p := by
  obtain ⟨f₁, m, f₂, y, z, split, some, order⟩ := spans
  rcases Forest.append_eq_group split.symm with ⟨k, rfl, rfl⟩ | ⟨k, rfl, rest⟩
  · exact ⟨before ++ .group o' (hole.fill new) e' k, m, f₂, y, z, by simp, some, order⟩
  · cases k with
    | nil => simp at rest
    | group o'' inside e'' k => simp at rest
    | atom id k =>
      obtain ⟨rfl, tail⟩ := Forest.atom.inj rest
      rcases Forest.append_eq_group tail with ⟨h, rfl, rfl⟩ | ⟨h, rfl, rest'⟩
      · refine (place y z _ order ?_).elim
        simp only [Forest.ids_append, Forest.ids, Forest.Hole.ids_fill, List.mem_append,
          List.mem_cons] at inner ⊢
        tauto
      · cases h with
        | nil => simp at rest'
        | group o'' inside e'' h => simp at rest'
        | atom id h =>
          obtain ⟨rfl, rfl⟩ := Forest.atom.inj rest'
          exact ⟨f₁, m, h ++ .group o' (hole.fill new) e' after, y, z, by simp, some, order⟩

/-- A class whose items are not edited stays as it is, or goes with a default of another one. -/
theorem StandsAt.edited {l' r' : List NodeId} {more : List Member}
    (stands : StandsAt c₀ c ds cls l' inside r' more) (edited : Edited c d l o f₁ old new f₂ e r)
    (sound : c.Sound) (active : Active cls.members) (different : cls.body.opener ≠ o)
    (takes : cls.body.opener ∈ old.ids → Shadowed c₀ ds cls)
    (place : ∀ x ∈ movable cls, ∀ y z, ∀ m : Forest,
      c₀.order = y ++ x.1.variableId :: (m.ids ++ x.1.terminator :: z) → o ∉ m.ids) :
    Standing c₀ d ds cls ∨ Gone d cls ∧ Shadowed c₀ ds cls := by
  have nodup := sound.wellFormed.order_nodup
  by_cases removed : cls.body.opener ∈ old.ids
  · obtain ⟨x, member⟩ := List.exists_mem_of_ne_nil _ (movable_eq ▸ active.1)
    obtain ⟨g₁, m, g₂, -, -, rfl, -⟩ := stands.spans x member
    have known : c.Known x.1.variableId :=
      sound.wellFormed.known_of_mem_order (by simp [stands.group.order, Forest.ids])
    have inside := stands.group.within nodup edited.guarded.fits edited.guarded.order removed
      x.1.variableId (by simp [Forest.ids])
    exact .inr ⟨⟨x, member, .inl (edited.not_mem nodup known (.inr inside))⟩, takes removed⟩
  · rcases edited.guarded.toSwap.cases stands.group removed with
      ⟨l'', r'', kept, within⟩ | ⟨hole, rfl, kept, left, right⟩
    · refine .inl ⟨l'', inside, r'', more, kept, ?_, stands.whole, stands.spans⟩
      rw [ClassDecl.outline_congr fun id member => edited.guarded.same id (within id (by simp [member]))]
      exact stands.outline
    · cases hole with
      | top g₁ g₂ =>
        have at' : GroupAt c l' cls.body.opener (g₁ ++ (old ++ g₂)) cls.body.closer r' := by
          simpa [Forest.Hole.fill] using stands.group
        exact (different (at'.same_of_place edited.group left.symm).2.1).elim
      | inside before o' hole e' after =>
        have fits := stands.group.fits.2.1
        simp only [Forest.Hole.fill, Forest.fits_append, Forest.Fits] at fits
        obtain ⟨fitsBefore, ⟨bracket, opener, -⟩, fitsHole, -⟩ := fits
        have low := fitsHole.level_nonneg ((Forest.Hole.ids_fill hole).trans (List.append_assoc ..))
        have inner : o ∈ o' :: hole.idsBefore := by
          refine (Forest.fits_append.mp edited.group.fits.2.1).1.opener_mem fitsBefore
            edited.group.level_opener stands.group.level_opener ?_ left different.symm
          rw [Forest.level_cons, Forest.level_of_opens (Forest.opens_of_bracket opener)]
          omega
        refine .inl ⟨l', _, r', more, kept, ?_, stands.whole, fun x member =>
          (stands.spans x member).refill inner (place x member)⟩
        rw [← stands.outline]
        refine ClassDecl.outline_inside fun id member => edited.guarded.same id ?_
        rw [left, right]
        simp only [Forest.Hole.idsBefore, Forest.Hole.idsAfter, List.mem_append, List.mem_cons]
          at member ⊢
        tauto

theorem ReadFrom.opener_mem (read : ReadFrom c₀ cls) : cls.body.opener ∈ c₀.order := by
  obtain ⟨l, inside, r, at', -⟩ := read.groupAt
  simp [at'.order]

theorem ReadFrom.known (sound : c₀.Sound) (read : ReadFrom c₀ cls) : c₀.Known cls.body.opener :=
  sound.wellFormed.known_of_mem_order read.opener_mem

/-- The variable and the semicolon of a default are what they were. -/
theorem Inv.default (inv : Inv c₀ ds fin todo c) (read : ReadFrom c₀ cls) (member : x ∈ movable cls) :
    c.Known x.1.variableId ∧ c.tokenIs Member.isVariable x.1.variableId = true ∧
      c.tokenIs (·.isPunctuation ';') x.1.terminator = true := by
  obtain ⟨isVariable, semicolon⟩ := read.default member
  have known : ∀ {p : Token → Bool} {id}, c₀.tokenIs p id = true → c₀.Known id := by
    intro p id holds
    obtain ⟨t, token, -⟩ := Chain.tokenIs_iff.mp holds
    exact Chain.known_iff_token?.mpr ⟨t, token⟩
  refine ⟨inv.known (known isVariable), ?_, ?_⟩
  · rw [Chain.tokenIs_eq_of_token? (inv.tokens _ (known isVariable))]
    exact isVariable
  · rw [Chain.tokenIs_eq_of_token? (inv.tokens _ (known semicolon))]
    exact semicolon

theorem Inv.gone_edited (inv : Inv c₀ ds fin todo c) (edited : Edited c d l o f₁ old new f₂ e r)
    (member : cls ∈ todo) (gone : Gone c cls) : Gone d cls := by
  obtain ⟨x, movable, settled⟩ := gone
  obtain ⟨known, isVariable, semicolon⟩ := inv.default (inv.reads cls (by simp [member])) movable
  exact ⟨x, movable, edited.settled inv.sound.wellFormed.order_nodup known isVariable semicolon settled⟩

/-- An edit that does no harm to classes that are done and is accounted for by those that are not. -/
structure Allowed (c₀ : Chain) (ds todo : List ClassDecl) (c d : Chain) (l : List NodeId) (o : NodeId)
    (f₁ old new f₂ : Forest) (e : NodeId) (r : List NodeId) : Prop
    extends Edited c d l o f₁ old new f₂ e r where
  known : c₀.Known o
  concerns : (∃ e, Target ds o e) ∨ ∃ cls ∈ ds, Active cls.members ∧ cls.body.opener = o
  enters : ∀ before k header b rest, HeaderAt d before k header b rest → b ∈ new.ids →
    c₀.Known k → Exposed c₀ ds k
  done : (∀ e, ¬ Target ds o e) → (outline c (f₁ ++ (old ++ f₂))).filterMap default? = [] →
    (outline d (f₁ ++ (new ++ f₂))).filterMap default? = []
  left : ∀ cls ∈ todo, Active cls.members → cls.body.opener = o → Standing c₀ c ds cls →
    Standing c₀ d ds cls ∨ Gone d cls ∧ Shadowed c₀ ds cls
  takes : ∀ cls ∈ todo, cls.body.opener ∈ old.ids → Shadowed c₀ ds cls
  place : ∀ cls ∈ todo, Active cls.members → cls.body.opener ≠ o → Standing c₀ c ds cls →
    ∀ x ∈ movable cls, ∀ y z, ∀ m : Forest,
      c₀.order = y ++ x.1.variableId :: (m.ids ++ x.1.terminator :: z) → o ∉ m.ids
  copies : ∀ before k header b rest, HeaderAt d before k header b rest → b ∈ new.ids →
    ¬ c₀.Known k → ∀ l inside e r, GroupAt d l b inside e r → Active (outline d inside) →
      ∃ cls ∈ todo, Active cls.members ∧ Gone d cls

theorem Inv.edited (inv : Inv c₀ ds fin todo c) (base : c₀.Sound)
    (allowed : Allowed c₀ ds todo c d l o f₁ old new f₂ e r) : Inv c₀ ds fin todo d where
  sound := allowed.sound
  reads := inv.reads
  tokens := fun id known => (allowed.tokens id (inv.known known)).trans (inv.tokens id known)
  kept := inv.kept.of_splice allowed.guarded.order allowed.guarded.order' fun id new old =>
    allowed.fresh id new (inv.known (base.wellFormed.known_of_mem_order old))
  headers := by
    intro before k header b rest at'
    rcases allowed.guarded.headerAt at' with inside | ⟨before', rest', at''⟩
    · refine .inr ⟨fun known => allowed.fresh b inside (inv.known known), ?_⟩
      by_cases known : c₀.Known k
      · exact .inr (allowed.enters _ _ _ _ _ at' inside known)
      · exact .inl known
    · exact inv.headers _ _ _ _ _ at''
  walks := by
    intro before k header x rest walks known plain
    have plain' : d.tokenIs (·.isPunctuation ';') x = false := by
      rw [Chain.tokenIs_eq_of_token? (allowed.tokens x (inv.known known)),
        Chain.tokenIs_eq_of_token? (inv.tokens x known)]
      exact plain
    rcases allowed.guarded.walk walks plain' with inside | ⟨before', rest', walks', -⟩
    · exact (allowed.fresh x inside (inv.known known)).elim
    · exact inv.walks _ _ _ _ _ walks' known plain
  closed := by
    intro before k header b rest at'
    rcases allowed.guarded.headerAt at' with inside | ⟨before', rest', at''⟩
    · obtain ⟨a, within, e', z, fits, split⟩ := allowed.guarded.fits'.exists_group
        (ClassDecl.opens_of_brace at'.brace) inside
      exact ⟨(l ++ o :: f₁.ids) ++ a, within, e', z ++ (f₂.ids ++ e :: r),
        by simp [allowed.guarded.order', split], fits⟩
    · obtain ⟨l', inside, e', r', group⟩ := inv.closed _ _ _ _ _ at''
      have known : c.Known b := inv.sound.wellFormed.known_of_mem_order (by simp [group.order])
      have outside : b ∉ old.ids := fun removed =>
        allowed.not_mem inv.sound.wellFormed.order_nodup known (.inr removed) (by simp [at'.order])
      rcases allowed.guarded.toSwap.cases group outside with ⟨l'', r'', kept, -⟩ | ⟨hole, -, kept, -⟩
      · exact ⟨_, _, _, _, kept⟩
      · exact ⟨_, _, _, _, kept⟩
  quiet := by
    intro l' b inside e' r' at' known noTarget noClass
    have different : b ≠ o := by
      rintro rfl
      rcases allowed.concerns with ⟨e', target⟩ | ⟨cls, member, active, same⟩
      · exact noTarget e' target
      · exact noClass cls member active same
    obtain ⟨l'', inside', r'', at'', same⟩ := allowed.other_before at'
      (fun new => allowed.fresh b new (inv.known known)) different
    obtain ⟨l₀, inside₀, r₀, at₀, same₀⟩ := inv.quiet _ _ _ _ _ at'' known noTarget noClass
    exact ⟨l₀, inside₀, r₀, at₀, same.symm.trans same₀⟩
  done := by
    intro cls member active noTarget l' inside e' r' at'
    have nodup := allowed.sound.wellFormed.order_nodup
    by_cases same : cls.body.opener = o
    · rw [same] at at' noTarget
      obtain ⟨-, rfl, -⟩ := at'.unique nodup allowed.toEdited.here
      exact allowed.done noTarget
        (inv.done cls member active (same ▸ noTarget) l _ e r (same ▸ allowed.group))
    · have known := (inv.reads cls (by simp [member])).known base
      obtain ⟨l'', inside', r'', at'', outline⟩ := allowed.other_before at'
        (fun new => allowed.fresh _ new (inv.known known)) same
      rw [← outline]
      exact inv.done cls member active noTarget _ _ _ _ at''
  left := by
    intro cls member active
    rcases inv.left cls member active with standing | ⟨gone, shadowed⟩
    · by_cases same : cls.body.opener = o
      · exact allowed.left cls member active same standing
      · have place := allowed.place cls member active same standing
        obtain ⟨l', inside, r', more, stands⟩ := standing
        exact stands.edited allowed.toEdited inv.sound active same (allowed.takes cls member) place
    · exact .inr ⟨inv.gone_edited allowed.toEdited member gone, shadowed⟩
  taken := fun cls' done active' cls later active takes =>
    inv.gone_edited allowed.toEdited later (inv.taken cls' done active' cls later active takes)
  copies := by
    intro before k header b rest at' unknown l' inside e' r' group active
    rcases allowed.guarded.headerAt at' with new | ⟨before', rest', at''⟩
    · exact allowed.copies _ _ _ _ _ at' new unknown _ _ _ _ group active
    · -- A header that starts at a new node ends at one.
      have unknown' : ¬ c₀.Known b := by
        rcases inv.headers _ _ _ _ _ at'' with ⟨before₀, rest₀, at₀⟩ | ⟨unknown', -⟩
        · exact (unknown (base.wellFormed.known_of_mem_order (by simp [at₀.order]))).elim
        · exact unknown'
      have known : c.Known b := inv.sound.wellFormed.known_of_mem_order (by simp [at''.order])
      obtain ⟨l'', inside', r'', group', outline⟩ := allowed.other_before group
        (fun new => allowed.fresh b new known) (by rintro rfl; exact unknown' allowed.known)
      obtain ⟨cls, member, active', gone⟩ :=
        inv.copies _ _ _ _ _ at'' unknown _ _ _ _ group' (outline ▸ active)
      exact ⟨cls, member, active', inv.gone_edited allowed.toEdited member gone⟩

/-! ### The first and the last state -/

theorem outline_eq (c : Chain) (f : Forest) : outline c f = (membersOf c f).map (·.rename id) := rfl

theorem ReadFrom.standing (read : ReadFrom c₀ cls) : Standing c₀ c₀ ds cls := by
  obtain ⟨l, inside, r, at', members⟩ := read.groupAt
  refine ⟨l, inside, r, [], at', by simp [outline_eq, members], fun _ => rfl, fun x member => ?_⟩
  obtain ⟨done, rest, split, value⟩ := mem_movable member
  rw [members] at split
  obtain ⟨f₁, lead, core, trail, f₂, rfl, default, -⟩ :=
    ClassDecl.exists_default at'.fits.2.1 split value
  refine ⟨f₁, lead ++ (core ++ trail), f₂, l ++ cls.body.opener :: f₁.ids,
    f₂.ids ++ cls.body.closer :: r, by simp, ?_, by simp [at'.order, Forest.ids]⟩
  have some := List.ne_nil_of_mem (List.mem_of_mem_head? default.starts)
  simp [some]

/-- Where the variable and the semicolon of a default were read. -/
theorem ReadFrom.default_mem (read : ReadFrom c₀ cls) (member : x ∈ movable cls) :
    x.1.variableId ∈ c₀.order ∧ x.1.terminator ∈ c₀.order := by
  have standing : Standing c₀ c₀ [] cls := read.standing
  obtain ⟨l, inside, r, more, stands⟩ := standing
  obtain ⟨f₁, m, f₂, y, z, -, -, order⟩ := stands.spans x member
  exact ⟨by simp [order], by simp [order]⟩

theorem Inv.start (base : c₀.Sound) (ok : ClassDecl.all c₀ = .ok ds) : Inv c₀ ds [] ds c₀ where
  toContinues := .refl base
  reads := fun cls member => (ClassDecl.mem_all base.wellFormed ok).mp (by simpa using member)
  headers := fun before _ _ _ rest at' => .inl ⟨before, rest, at'⟩
  walks := fun before _ _ _ rest walks _ _ => ⟨before, rest, walks⟩
  closed := by
    intro before k header b rest at'
    obtain ⟨inside, e, tail, found⟩ := at'.classAt_of_all base.wellFormed ok
    exact ⟨before ++ k :: header, inside, e, tail, by simp [found.order], found.fits⟩
  quiet := fun l _ inside _ r at' _ _ _ => ⟨l, inside, r, at', rfl⟩
  done := by simp
  left := fun cls member _ => .inl
    (ReadFrom.standing ((ClassDecl.mem_all base.wellFormed ok).mp member))
  taken := by simp
  copies := by
    intro before k header b rest at' unknown
    exact (unknown (base.wellFormed.known_of_mem_order (by simp [at'.order]))).elim

/-- A class that is there, or on which there is nothing to do, gets its turn. -/
theorem Inv.next (inv : Inv c₀ ds fin (cls :: todo) c) (present : Active cls.members → ¬ Gone c cls) :
    Inv c₀ ds fin todo c where
  toContinues := inv.toContinues
  reads := fun cls' member => inv.reads cls' (by
    simp only [List.mem_append, List.mem_cons] at member ⊢
    tauto)
  headers := inv.headers
  walks := inv.walks
  closed := inv.closed
  quiet := inv.quiet
  done := inv.done
  left := fun cls' member => inv.left cls' (List.mem_cons_of_mem _ member)
  taken := fun cls' done active' cls later =>
    inv.taken cls' done active' cls (List.mem_cons_of_mem _ later)
  copies := by
    intro before k header b rest at' unknown l inside e r group active
    obtain ⟨cls', member, active', gone⟩ :=
      inv.copies before k header b rest at' unknown l inside e r group active
    rcases List.mem_cons.mp member with rfl | later
    · exact (present active' gone).elim
    · exact ⟨cls', later, active', gone⟩

/-- A class is done once its body has no defaults any more. -/
theorem Inv.finish (inv : Inv c₀ ds fin todo c) (read : ReadFrom c₀ cls)
    (plain : Active cls.members → (∀ e, ¬ Target ds cls.body.opener e) →
      ∀ l inside e r, GroupAt c l cls.body.opener inside e r →
        (outline c inside).filterMap default? = [])
    (taken : Active cls.members → ∀ cls' ∈ todo, Active cls'.members → Takes c₀ cls cls' →
      Gone c cls') : Inv c₀ ds (fin ++ [cls]) todo c where
  toContinues := inv.toContinues
  reads := by
    intro cls' member
    simp only [List.append_assoc, List.mem_append, List.mem_singleton] at member
    rcases member with earlier | rfl | later
    · exact inv.reads cls' (by simp [earlier])
    · exact read
    · exact inv.reads cls' (by simp [later])
  headers := inv.headers
  walks := inv.walks
  closed := inv.closed
  quiet := inv.quiet
  done := by
    intro cls' member
    rcases List.mem_append.mp member with earlier | here
    · exact inv.done cls' earlier
    · rw [List.mem_singleton.mp here]
      exact plain
  left := inv.left
  taken := by
    intro cls' member
    rcases List.mem_append.mp member with earlier | here
    · exact inv.taken cls' earlier
    · rw [List.mem_singleton.mp here]
      exact taken
  copies := inv.copies

/-- Two words `class` with the same braces declare the same members. -/
theorem ReadFrom.members_eq (base : c₀.Sound) (read : ReadFrom c₀ cls) (read' : ReadFrom c₀ cls')
    (same : cls.body.opener = cls'.body.opener) : cls.members = cls'.members := by
  obtain ⟨l, inside, r, at', members⟩ := read.groupAt
  obtain ⟨l', inside', r', at'', members'⟩ := read'.groupAt
  rw [← same] at at''
  obtain ⟨-, rfl, -⟩ := at'.unique base.wellFormed.order_nodup at''
  rw [members, members']

/-- When all is done, only a class whose header runs into the rule's own statements can be left. -/
theorem Inv.inactive (inv : Inv c₀ ds ds [] c) (base : c₀.Sound) (ok : ClassDecl.all c₀ = .ok ds)
    {before header rest : List NodeId} (at' : HeaderAt c before k header b rest)
    (safe : ¬ Exposed c₀ ds k) (group : GroupAt c l b inside e r) : ¬ Active (outline c inside) := by
  intro active
  rcases inv.headers _ _ _ _ _ at' with ⟨before₀, rest₀, at₀⟩ | ⟨-, unknown | exposed⟩
  · obtain ⟨inside₀, e₀, tail, found⟩ := at₀.classAt_of_all base.wellFormed ok
    have member : ofClassAt c₀ k header b inside₀ e₀ ∈ ds :=
      (ClassDecl.mem_all base.wellFormed ok).mpr ⟨_, _, _, _, _, _, _, found, rfl⟩
    have noTarget : ∀ e, ¬ Target ds b e := by
      intro e target
      refine safe ⟨by simp [at₀.order], b, e, target, .inl ?_⟩
      rw [at₀.toList_header base.wellFormed]
      simp
    have known : c₀.Known b := base.wellFormed.known_of_mem_order (by simp [at₀.order])
    by_cases active₀ : Active (membersOf c₀ inside₀)
    · exact active.1 (inv.done _ member active₀ noTarget _ _ _ _ group)
    · have noClass : ∀ cls ∈ ds, Active cls.members → cls.body.opener ≠ b := by
        intro cls inside' active' same
        have read := inv.reads cls (by simp [inside'])
        have read' := inv.reads _ (List.mem_append_left [] member)
        rw [read.members_eq base read' same] at active'
        exact active₀ active'
      obtain ⟨l₀, inside', r₀, at'', outline⟩ := inv.quiet _ _ _ _ _ group known noTarget noClass
      have here : GroupAt c₀ (before₀ ++ k :: header) b inside₀ e₀ tail :=
        ⟨by simp [found.order], found.fits⟩
      obtain ⟨-, rfl, -⟩ := at''.unique base.wellFormed.order_nodup here
      rw [outline, outline_eq, active_rename] at active
      exact active₀ active
  · obtain ⟨cls, member, -⟩ := inv.copies _ _ _ _ _ at' unknown _ _ _ _ group active
    simp at member
  · exact safe exposed

end Restyle.ConstructorDefaults
