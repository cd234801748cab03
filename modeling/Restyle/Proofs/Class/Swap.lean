import Restyle.Proofs.Group.Forest
import Restyle.Proofs.Class.Rename

/-!
# Groups and edits

An edit of a chain takes one forest out of its order and puts another in its place (`Swap`). A group
of the chain is not touched by this, or the place is inside it: deeper down, and then the items of
the group look the same, or right among them (`Swap.group`).
-/

namespace Restyle
open Forest (Hole)

/-- In a list without repetition every member has one place. -/
theorem split_unique {α : Type} {a : α} {l x y x' y' : List α} (nodup : l.Nodup)
    (split : l = x ++ a :: y) (split' : l = x' ++ a :: y') : x = x' ∧ y = y' := by
  rw [split, List.nodup_append, List.nodup_cons] at nodup
  obtain ⟨rfl, -, rfl⟩ := (List.append_cons_inj_of_notMem
    (fun member => nodup.2.2 a member a List.mem_cons_self rfl) nodup.2.1.1).mp (split.symm.trans split')
  exact ⟨rfl, rfl⟩

theorem between_unique {α : Type} {a b : α} {l x m y x' m' y' : List α} (nodup : l.Nodup)
    (split : l = x ++ a :: (m ++ b :: y)) (split' : l = x' ++ a :: (m' ++ b :: y')) :
    x = x' ∧ m = m' ∧ y = y' := by
  obtain ⟨rfl, tail⟩ := split_unique nodup split split'
  rw [split, List.nodup_append, List.nodup_cons] at nodup
  exact ⟨rfl, split_unique nodup.2.1.2 rfl tail⟩

structure GroupAt (c : Chain) (left : List NodeId) (o : NodeId) (inside : Forest) (e : NodeId)
    (right : List NodeId) : Prop where
  order : c.order = left ++ o :: (inside.ids ++ e :: right)
  fits : (Forest.group o inside e .nil).Fits c

/-- `old` is taken out between `left` and `right`, and `new` put in. -/
structure Swap (c d : Chain) (left : List NodeId) (old new : Forest) (right : List NodeId) :
    Prop where
  order : c.order = left ++ (old.ids ++ right)
  order' : d.order = left ++ (new.ids ++ right)
  fits : old.Fits c
  fits' : new.Fits d
  same : ∀ id ∈ left ++ right, d.token? id = c.token? id

variable {c d : Chain} {left right l r l' r' : List NodeId} {old new inside f : Forest} {o e o' e' : NodeId}

theorem Swap.symm (swap : Swap c d left old new right) : Swap d c left new old right :=
  ⟨swap.order', swap.order, swap.fits', swap.fits, fun id member => (swap.same id member).symm⟩

namespace Forest

theorem fits_congr (same : ∀ id ∈ f.ids, d.token? id = c.token? id) : f.Fits d ↔ f.Fits c := by
  induction f with
  | nil => exact Iff.rfl
  | atom id rest ih =>
    have here := same id (by simp [ids])
    simp only [Fits, Chain.known_iff_token?, Chain.opens, Chain.closes, here,
      Chain.tokenIs_eq_of_token? here]
    rw [ih fun x member => same x (by simp [ids, member])]
  | group o inside e rest ih ih' =>
    have opener := same o (by simp [ids])
    have closer := same e (by simp [ids])
    simp only [Fits, opener, Chain.tokenIs_eq_of_token? closer]
    rw [ih fun x member => same x (by simp [ids, member]),
      ih' fun x member => same x (by simp [ids, member])]

theorem Hole.fits_swap {hole : Hole} (fits : (hole.fill old).Fits c) (fits' : new.Fits d)
    (same : ∀ id ∈ hole.idsBefore ++ hole.idsAfter, d.token? id = c.token? id) :
    (hole.fill new).Fits d := by
  have empty : (hole.fill nil).Fits c := Hole.fits_fill fits trivial
  have moved : (hole.fill nil).Fits d := by
    rw [fits_congr fun id member => same id ?_]
    · exact empty
    · simpa [Hole.ids_fill, ids] using member
  exact Hole.fits_fill moved fits'

end Forest

/-- A group around the place of a swap. -/
theorem Swap.refill {hole : Hole}
    (swap : Swap c d (l ++ o :: hole.idsBefore) old new (hole.idsAfter ++ e :: r))
    (at' : GroupAt c l o (hole.fill old) e r) : GroupAt d l o (hole.fill new) e r := by
  obtain ⟨⟨bracket, opener, closer⟩, fitsInside, -⟩ := at'.fits
  have fitsHole : (hole.fill new).Fits d := Forest.Hole.fits_swap fitsInside swap.fits'
    fun id member => swap.same id (by
      simp only [List.mem_append, List.mem_cons] at member ⊢
      tauto)
  refine ⟨by simp [swap.order', Forest.Hole.ids_fill], ⟨bracket, ?_, ?_⟩, fitsHole, trivial⟩
  · rw [swap.same o (by simp)]
    exact opener
  · rw [Chain.tokenIs_eq_of_token? (swap.same e (by simp))]
    exact closer

/-- Where a group is after a swap. -/
theorem Swap.cases (swap : Swap c d left old new right) (at' : GroupAt c l o inside e r)
    (outside : o ∉ old.ids) :
    (∃ l' r', GroupAt d l' o inside e r' ∧ ∀ id ∈ o :: (inside.ids ++ [e]), id ∈ left ++ right) ∨
    ∃ hole : Hole, inside = hole.fill old ∧ GroupAt d l o (hole.fill new) e r ∧
      left = l ++ o :: hole.idsBefore ∧ right = hole.idsAfter ++ e :: r := by
  have order := at'.order.symm.trans swap.order
  have keep : (∀ id ∈ o :: (inside.ids ++ [e]), id ∈ left ++ right) →
      (Forest.group o inside e .nil).Fits d := by
    intro within
    rw [Forest.fits_congr fun id member => swap.same id (within id ?_)]
    · exact at'.fits
    · simpa [Forest.ids] using member
  have behind : ∀ z, right = z ++ o :: (inside.ids ++ e :: r) →
      ∃ l' r', GroupAt d l' o inside e r' ∧ ∀ id ∈ o :: (inside.ids ++ [e]), id ∈ left ++ right := by
    intro z same
    have within : ∀ id ∈ o :: (inside.ids ++ [e]), id ∈ left ++ right := by
      intro id member
      simp only [same, List.mem_append, List.mem_cons] at member ⊢
      tauto
    exact ⟨left ++ (new.ids ++ z), r, ⟨by simp [swap.order', same], keep within⟩, within⟩
  rcases List.append_eq_append_iff.mp order with ⟨x, rfl, rest⟩ | ⟨x, rfl, rest⟩
  · cases x with
    | nil =>
      cases same : old.ids with
      | nil => exact .inl (behind [] (by simpa [same] using rest.symm))
      | cons first tail =>
        rw [same, List.nil_append] at rest
        exact (outside (by rw [same, (List.cons.inj rest).1]; exact List.mem_cons_self)).elim
    | cons first y =>
      obtain ⟨rfl, tail⟩ := List.cons.inj rest
      -- What is left of the order behind the place where the swap starts.
      have among : ∀ z, inside.ids = y ++ z → old.ids ++ right = z ++ e :: r →
          ∃ hole : Hole, inside = hole.fill old ∧ GroupAt d l o (hole.fill new) e r ∧
            l ++ o :: y = l ++ o :: hole.idsBefore ∧ right = hole.idsAfter ++ e :: r := by
        intro z ends beyond
        obtain ⟨⟨bracket, opener, closer⟩, fitsInside, -⟩ := at'.fits
        obtain ⟨closes, plain⟩ := Forest.closes_of_bracket opener closer
        obtain ⟨w, rfl, rfl⟩ := fitsInside.ends_before swap.fits closes plain ends beyond
        obtain ⟨hole, rfl, rfl, rfl⟩ := fitsInside.exists_hole swap.fits (by simpa using ends)
        exact ⟨hole, rfl, swap.refill at', rfl, rfl⟩
      rcases List.append_eq_append_iff.mp tail with ⟨z, rfl, ends⟩ | ⟨z, ends, beyond⟩
      · cases z with
        | nil => exact .inr (among [] (by simp) (by simpa using ends.symm))
        | cons first z =>
          obtain ⟨rfl, rfl⟩ := List.cons.inj ends
          have within : ∀ id ∈ o :: (inside.ids ++ [e]),
              id ∈ l ++ o :: (inside.ids ++ e :: z) ++ right := by
            intro id member
            simp only [List.mem_append, List.mem_cons] at member ⊢
            tauto
          exact .inl ⟨l, z ++ (new.ids ++ right), ⟨by simp [swap.order'], keep within⟩, within⟩
      · exact .inr (among z ends beyond)
  · rcases List.append_eq_append_iff.mp rest with ⟨z, rfl, ends⟩ | ⟨z, ends, beyond⟩
    · exact .inl (behind z ends)
    · cases z with
      | nil => exact .inl (behind [] (by simpa using beyond.symm))
      | cons first z =>
        obtain ⟨rfl, -⟩ := List.cons.inj beyond
        exact (outside (by simp [ends])).elim

/-! ### The members in a group -/

namespace ClassDecl

/-- The members that a forest declares, without what is inside their groups. -/
def outline (c : Chain) (f : Forest) : List Member := (membersOf c f).map (·.rename id)

theorem outline_congr (same : ∀ id ∈ f.ids, d.token? id = c.token? id) : outline d f = outline c f := by
  refine Renamed.members ⟨rfl, fun i member => .inl ?_⟩
  obtain ⟨first, last⟩ := Forest.item_ids member
  exact ⟨same i.first first, same i.last last⟩

theorem outline_inside {before after : Forest} {hole : Hole}
    (same : ∀ id ∈ before.ids ++ o :: e :: after.ids, d.token? id = c.token? id) :
    outline d (before ++ .group o (hole.fill new) e after) =
      outline c (before ++ .group o (hole.fill old) e after) := by
  refine Renamed.members ⟨?_, fun i member => .inl ?_⟩
  · simp [Forest.items, Item.rename, Group.rename, Group.opener, Group.closer]
  · have within : i.first ∈ before.ids ++ o :: e :: after.ids ∧
        i.last ∈ before.ids ++ o :: e :: after.ids := by
      rw [Forest.items_append, List.mem_append] at member
      rcases member with member | member
      · obtain ⟨first, last⟩ := Forest.item_ids member
        simp [first, last]
      · rcases List.mem_cons.mp member with rfl | member
        · simp [Item.first, Item.last, Group.opener, Group.closer]
        · obtain ⟨first, last⟩ := Forest.item_ids member
          simp [first, last]
    exact ⟨same _ within.1, same _ within.2⟩

end ClassDecl

open ClassDecl (outline)

/-- What a swap does to a group: nothing that shows in its items, or it changes just these. -/
theorem Swap.group (swap : Swap c d left old new right) (at' : GroupAt c l o inside e r)
    (outside : o ∉ old.ids) :
    (∃ l' inside' r', GroupAt d l' o inside' e r' ∧ outline d inside' = outline c inside) ∨
    ∃ f₁ f₂, inside = f₁ ++ (old ++ f₂) ∧ GroupAt d l o (f₁ ++ (new ++ f₂)) e r ∧
      left = l ++ o :: f₁.ids ∧ right = f₂.ids ++ e :: r := by
  rcases swap.cases at' outside with ⟨l', r', kept, within⟩ | ⟨hole, rfl, kept, rfl, rfl⟩
  · refine .inl ⟨l', inside, r', kept, ClassDecl.outline_congr fun id member => ?_⟩
    exact swap.same id (within id (by simp [member]))
  · cases hole with
    | top f₁ f₂ => exact .inr ⟨f₁, f₂, by simp [Hole.fill], by simpa [Hole.fill] using kept, rfl, rfl⟩
    | inside before o' hole e' after =>
      refine .inl ⟨l, _, r, kept, ClassDecl.outline_inside fun id member => swap.same id ?_⟩
      simp only [Hole.idsBefore, Hole.idsAfter, List.mem_append, List.mem_cons] at member ⊢
      tauto

/-! ### One group at a place -/

theorem GroupAt.opens (at' : GroupAt c l o inside e r) (wf : c.WellFormed) :
    Group.Opens c o inside e := by
  have run := wf.order_isRun_of_mem (show o ∈ c.order by simp [at'.order])
  have split : c.order = l ++ (o :: (inside.ids ++ [e]) ++ r) := by simp [at'.order]
  rw [split] at run
  exact ⟨at'.fits, run.path.right.left⟩

theorem GroupAt.level_closer (at' : GroupAt c l o inside e r) : c.level [e] = -1 := by
  obtain ⟨⟨bracket, opener, closer⟩, -⟩ := at'.fits
  obtain ⟨closes, plain⟩ := Forest.closes_of_bracket opener closer
  exact Forest.level_of_closes closes plain

theorem GroupAt.level_opener (at' : GroupAt c l o inside e r) : c.level [o] = 1 := by
  obtain ⟨⟨bracket, opener, -⟩, -⟩ := at'.fits
  exact Forest.level_of_opens (Forest.opens_of_bracket opener)

theorem GroupAt.unique (nodup : c.order.Nodup) {inside' : Forest} (at' : GroupAt c l o inside e r)
    (other : GroupAt c l' o inside' e' r') : l = l' ∧ inside = inside' ∧ e = e' ∧ r = r' := by
  obtain ⟨rfl, tail⟩ := split_unique nodup at'.order other.order
  obtain ⟨ids, rfl, rfl⟩ := at'.fits.2.1.ids_eq_of_closes other.fits.2.1 at'.level_closer
    other.level_closer tail
  exact ⟨rfl, at'.fits.2.1.eq_of_ids other.fits.2.1 ids, rfl, rfl⟩

theorem Forest.Fits.not_opened {y z : List NodeId} (fits : f.Fits c) (opens : c.level [o] = 1)
    (level : 0 ≤ c.level z) : f.ids ≠ y ++ o :: z := by
  intro same
  have zero := fits.level_ids
  have high := fits.level_nonneg same
  rw [same, Forest.level_append, Forest.level_cons, opens] at zero
  omega

/-- Groups that have the same place among their items are the same. -/
theorem GroupAt.same_of_place {f₁ f₂ g₁ g₂ : Forest} (at' : GroupAt c l o (f₁ ++ f₂) e r)
    (other : GroupAt c l' o' (g₁ ++ g₂) e' r') (place : l ++ o :: f₁.ids = l' ++ o' :: g₁.ids) :
    l = l' ∧ o = o' ∧ f₁.ids = g₁.ids := by
  have fits := (Forest.fits_append.mp at'.fits.2.1).1
  have fits' := (Forest.fits_append.mp other.fits.2.1).1
  rcases List.append_eq_append_iff.mp place with ⟨x, rfl, tail⟩ | ⟨x, rfl, tail⟩
  · cases x with
    | nil =>
      obtain ⟨rfl, same⟩ := List.cons.inj tail
      exact ⟨by simp, rfl, same⟩
    | cons first y =>
      exact (fits.not_opened other.level_opener (Int.le_of_eq fits'.level_ids.symm)
        (List.cons.inj tail).2).elim
  · cases x with
    | nil =>
      obtain ⟨rfl, same⟩ := List.cons.inj tail
      exact ⟨by simp, rfl, same.symm⟩
    | cons first y =>
      exact (fits'.not_opened at'.level_opener (Int.le_of_eq fits.level_ids.symm)
        (List.cons.inj tail).2).elim

/-- The group around a place opens in front of it, behind every group that ends there. -/
theorem Forest.Fits.opener_mem {g : Forest} {p : List NodeId} (fits : f.Fits c) (fits' : g.Fits c)
    (opens : c.level [o] = 1) (opens' : c.level [o'] = 1) (level : 0 ≤ c.level p)
    (place : l ++ o :: f.ids = l' ++ o' :: (g.ids ++ p)) (different : o ≠ o') : o ∈ p := by
  rcases List.append_eq_append_iff.mp place with ⟨x, -, tail⟩ | ⟨x, -, tail⟩
  · cases x with
    | nil => exact (different (List.cons.inj tail).1).elim
    | cons first y =>
      have high : 0 ≤ c.level (g.ids ++ p) := by
        rw [Forest.level_append, fits'.level_ids]
        omega
      exact (fits.not_opened opens' high (List.cons.inj tail).2).elim
  · cases x with
    | nil => exact (different (List.cons.inj tail).1.symm).elim
    | cons first y =>
      rcases List.append_eq_append_iff.mp (List.cons.inj tail).2 with ⟨w, -, rfl⟩ | ⟨w, long, rest⟩
      · simp
      · cases w with
        | nil =>
          obtain rfl : o :: f.ids = p := rest
          exact List.mem_cons_self
        | cons first w =>
          obtain ⟨rfl, split⟩ := List.cons.inj rest
          exact (fits'.not_opened opens (fits.level_nonneg split) long).elim

/-- A group that opens in a forest is all in it. -/
theorem GroupAt.within (at' : GroupAt c l o inside e r) (nodup : c.order.Nodup) (fits : f.Fits c)
    (order : c.order = left ++ (f.ids ++ right)) (opens : o ∈ f.ids) :
    ∀ id ∈ inside.ids, id ∈ f.ids := by
  obtain ⟨a, b, split⟩ := List.append_of_mem opens
  have place : c.order = (left ++ a) ++ o :: (b ++ right) := by simp [order, split]
  obtain ⟨-, tail⟩ := split_unique nodup at'.order place
  have zero := fits.level_ids
  have high := fits.level_nonneg split
  rw [split, Forest.level_append, Forest.level_cons, at'.level_opener] at zero
  rcases List.append_eq_append_iff.mp tail with ⟨w, rfl, -⟩ | ⟨w, long, -⟩
  · intro id member
    simp [split, member]
  · have low := at'.fits.2.1.level_nonneg long
    omega

/-- An opening bracket in a forest opens a group of it. -/
theorem Forest.Fits.exists_group (fits : f.Fits c) (opens : c.opens o = true) (member : o ∈ f.ids) :
    ∃ before inside e after, (group o inside e nil).Fits c ∧
      f.ids = before ++ o :: (inside.ids ++ e :: after) := by
  induction f with
  | nil => simp [ids] at member
  | atom id rest ih =>
    rcases List.mem_cons.mp member with rfl | member
    · simp [fits.1.2.1] at opens
    · obtain ⟨before, inside, e, after, fitsGroup, split⟩ := ih fits.2 member
      exact ⟨id :: before, inside, e, after, fitsGroup, by simp [ids, split]⟩
  | group o' inside e rest ih ih' =>
    obtain ⟨brackets, fitsInside, fitsRest⟩ := fits
    by_cases same : o = o'
    · subst same
      exact ⟨[], inside, e, rest.ids, ⟨brackets, fitsInside, trivial⟩, rfl⟩
    · have different : o ≠ e := by
        rintro rfl
        obtain ⟨bracket, opener, closer⟩ := brackets
        simp [(closes_of_bracket opener closer).2] at opens
      have either : o ∈ inside.ids ∨ o ∈ rest.ids := by
        simp only [ids, List.mem_cons, List.mem_append] at member
        tauto
      rcases either with member | member
      · obtain ⟨before, inner, e', after, fitsGroup, split⟩ := ih fitsInside member
        exact ⟨o' :: before, inner, e', after ++ e :: rest.ids, fitsGroup, by simp [ids, split]⟩
      · obtain ⟨before, inner, e', after, fitsGroup, split⟩ := ih' fitsRest member
        exact ⟨o' :: (inside.ids ++ e :: before), inner, e', after, fitsGroup, by simp [ids, split]⟩

end Restyle
