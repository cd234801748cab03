import Restyle.Proofs.Class.Reread
import Restyle.Proofs.Rule.Active
import Restyle.Proofs.Rule.Effect

/-!
# One edit of the rule

Whatever the rule does is a guarded swap among the items of one group (`Edited`). All other groups
keep their members, headers stay as they are, and what was declared without a default stays so.
-/

namespace Restyle.ConstructorDefaults
open ClassDecl (Guarded HeaderAt Walks outline)
variable {c d : Chain} {l r l' r' : List NodeId} {o e o' e' v t : NodeId}
  {f₁ old new f₂ inside : Forest}

/-- The rule swaps `old` for `new` among the items of the group at `o`. -/
structure Edited (c d : Chain) (l : List NodeId) (o : NodeId) (f₁ old new f₂ : Forest) (e : NodeId)
    (r : List NodeId) : Prop where
  group : GroupAt c l o (f₁ ++ (old ++ f₂)) e r
  guarded : Guarded c d (l ++ o :: f₁.ids) old new (f₂.ids ++ e :: r)
  sound : d.Sound
  tokens : ∀ id, c.Known id → d.token? id = c.token? id
  fresh : ∀ id ∈ new.ids, ¬ c.Known id
  /-- Nothing comes between a variable and the semicolon after it. -/
  apart : ∀ v t x y, c.tokenIs Member.isVariable v = true → c.tokenIs (·.isPunctuation ';') t = true →
    l ++ o :: f₁.ids = x ++ [v] → old.ids ++ (f₂.ids ++ e :: r) ≠ t :: y

namespace Edited
variable (edited : Edited c d l o f₁ old new f₂ e r)
include edited

/-- The group itself after the edit. -/
theorem here : GroupAt d l o (f₁ ++ (new ++ f₂)) e r := by
  have same := edited.guarded.same
  have fits := edited.group.fits
  simp only [Forest.Fits, Forest.fits_append] at fits
  obtain ⟨⟨bracket, opener, closer⟩, ⟨fits₁, -, fits₂⟩, -⟩ := fits
  refine ⟨by simp [edited.guarded.order'], ⟨bracket, ?_, ?_⟩, ?_, trivial⟩
  · rw [same o (by simp)]
    exact opener
  · rw [Chain.tokenIs_eq_of_token? (same e (by simp))]
    exact closer
  · rw [Forest.fits_append, Forest.fits_append]
    refine ⟨?_, edited.guarded.fits', ?_⟩
    · rw [Forest.fits_congr fun id member => same id (by simp [member])]
      exact fits₁
    · rw [Forest.fits_congr fun id member => same id (by simp [member])]
      exact fits₂

/-- Another group that is there after the edit. -/
theorem other_before (at' : GroupAt d l' o' inside e' r') (outside : o' ∉ new.ids)
    (different : o' ≠ o) :
    ∃ l'' inside' r'', GroupAt c l'' o' inside' e' r'' ∧ outline c inside' = outline d inside := by
  rcases edited.guarded.toSwap.symm.group at' outside with kept | ⟨g₁, g₂, rfl, -, place, -⟩
  · exact kept
  · exact (different (at'.same_of_place edited.here place.symm).2.1).elim

end Edited

/-- The property with these nodes has no default any more, or is gone. -/
def Settled (c : Chain) (v t : NodeId) : Prop := v ∉ c.order ∨ ∃ x y, c.order = x ++ v :: t :: y

section Splice
variable {left mid mid' right : List NodeId} (order : c.order = left ++ (mid ++ right))
  (order' : d.order = left ++ (mid' ++ right)) (nodup : c.order.Nodup) (fresh : v ∉ mid')
include order order' nodup fresh

theorem not_mem_of_splice (out : v ∉ c.order ∨ v ∈ mid) : v ∉ d.order := by
  rw [order] at out nodup
  rw [order']
  intro member
  simp only [List.mem_append, not_or] at member out
  have outside : v ∉ left ∧ v ∉ right := by
    rcases out with out | inside
    · exact ⟨out.1, out.2.2⟩
    · obtain ⟨-, second, apart⟩ := List.nodup_append.mp nodup
      refine ⟨fun before => apart v before v (List.mem_append_left _ inside) rfl, fun after => ?_⟩
      exact (List.nodup_append.mp second).2.2 v inside v after rfl
  tauto

theorem Settled.of_splice (settled : Settled c v t)
    (apart : ∀ x y, left = x ++ [v] → mid ++ right ≠ t :: y) : Settled d v t := by
  rcases settled with out | ⟨x, y, place⟩
  · exact .inl (not_mem_of_splice order order' nodup fresh (.inl out))
  · by_cases inside : v ∈ mid
    · exact .inl (not_mem_of_splice order order' nodup fresh (.inr inside))
    have behind : ∀ z w, mid ++ right = z ++ v :: w → ∃ z', right = z' ++ v :: w := by
      intro z w same
      rcases List.append_eq_append_iff.mp same with ⟨z', -, tail⟩ | ⟨u, split, tail⟩
      · exact ⟨z', tail⟩
      · cases u with
        | nil => exact ⟨[], by simpa using tail.symm⟩
        | cons first u =>
          obtain ⟨rfl, -⟩ := List.cons.inj tail
          exact (inside (by simp [split])).elim
    rw [Settled, order']
    rcases List.append_eq_append_iff.mp (order.symm.trans place) with ⟨z, -, tail⟩ | ⟨z, split, tail⟩
    · obtain ⟨z', rfl⟩ := behind z (t :: y) tail
      exact .inr ⟨left ++ (mid' ++ z'), y, by simp⟩
    · cases z with
      | nil =>
        obtain ⟨z', rfl⟩ := behind [] (t :: y) tail.symm
        exact .inr ⟨left ++ (mid' ++ z'), y, by simp⟩
      | cons first z =>
        obtain ⟨rfl, rest⟩ := List.cons.inj tail
        cases z with
        | nil => exact (apart x y split rest.symm).elim
        | cons second z =>
          obtain ⟨rfl, -⟩ := List.cons.inj rest
          exact .inr ⟨x, z ++ (mid' ++ right), by simp [split]⟩

end Splice

theorem Edited.not_mem (edited : Edited c d l o f₁ old new f₂ e r) (nodup : c.order.Nodup)
    (known : c.Known v) (out : v ∉ c.order ∨ v ∈ old.ids) : v ∉ d.order :=
  not_mem_of_splice edited.guarded.order edited.guarded.order' nodup
    (fun inside => edited.fresh v inside known) out

theorem Edited.settled (edited : Edited c d l o f₁ old new f₂ e r) (nodup : c.order.Nodup)
    (known : c.Known v) (isVariable : c.tokenIs Member.isVariable v = true)
    (semicolon : c.tokenIs (·.isPunctuation ';') t = true) (settled : Settled c v t) :
    Settled d v t :=
  settled.of_splice edited.guarded.order edited.guarded.order' nodup
    (fun inside => edited.fresh v inside known)
    fun x y => edited.apart v t x y isVariable semicolon

/-! ### The order of the nodes that were there -/

/-- The nodes of `c₀` that are still in `c` stand in the order in which they stood. -/
def Kept (c₀ c : Chain) : Prop := (c.order.filter (· ∈ c₀.order)).Sublist c₀.order

theorem Kept.refl (c : Chain) : Kept c c := List.filter_sublist

theorem Kept.sublist {c₀ : Chain} {l : List NodeId} (kept : Kept c₀ c) (sublist : l.Sublist c.order)
    (old : ∀ id ∈ l, id ∈ c₀.order) : l.Sublist c₀.order := by
  have filtered := sublist.filter (· ∈ c₀.order)
  rw [List.filter_eq_self.mpr (by simpa using old)] at filtered
  exact filtered.trans kept

theorem Kept.of_splice {c₀ : Chain} {left mid mid' right : List NodeId} (kept : Kept c₀ c)
    (order : c.order = left ++ (mid ++ right)) (order' : d.order = left ++ (mid' ++ right))
    (fresh : ∀ id ∈ mid', id ∉ c₀.order) : Kept c₀ d := by
  have none : mid'.filter (· ∈ c₀.order) = [] :=
    List.filter_eq_nil_iff.mpr fun id member => by simpa using fresh id member
  have fewer : (d.order.filter (· ∈ c₀.order)).Sublist (c.order.filter (· ∈ c₀.order)) := by
    rw [order, order', List.filter_append, List.filter_append, List.filter_append, List.filter_append,
      none, List.nil_append]
    exact (List.Sublist.refl _).append (List.sublist_append_right ..)
  exact fewer.trans kept

structure Continues (c₀ c : Chain) : Prop where
  sound : c.Sound
  tokens : ∀ id, c₀.Known id → c.token? id = c₀.token? id
  kept : Kept c₀ c

theorem Continues.refl (sound : c.Sound) : Continues c c := ⟨sound, fun _ _ => rfl, .refl c⟩

theorem Continues.known {c₀ : Chain} {id : NodeId} (continues : Continues c₀ c) (known : c₀.Known id) :
    c.Known id := by
  obtain ⟨t, token⟩ := Chain.known_iff_token?.mp known
  exact Chain.known_iff_token?.mpr ⟨t, (continues.tokens id known).trans token⟩

end Restyle.ConstructorDefaults
