import Mathlib.Data.List.Nodup
import Mathlib.Data.List.Range
import Mathlib.Data.Nat.Find
import Mathlib.Data.List.Perm.Subperm
import Restyle.Proofs.Chain.Table
import Restyle.Proofs.Trail

/-!
# Well-formed chains

The links of a well-formed chain agree with each other and form no loop, so its nodes fall into
runs. `exists_run` finds the run of a node, and `order_eq_of_run` says that the chain proper is the
run of the head.
-/

namespace Restyle.Chain
open Trail (IsPath)
variable {c : Chain} {a b id x : NodeId} {l before after : List NodeId}

def nextAfter (c : Chain) : Nat → NodeId → Option NodeId
  | 0, id => some id
  | n + 1, id => (c.next? id).bind (c.nextAfter n)

structure WellFormed (c : Chain) : Prop where
  /-- Links lead to nodes of the table. -/
  inRange : ∀ a b, c.next? a = some b ∨ c.previous? a = some b → c.Known b
  symmetric : ∀ a b, c.next? a = some b ↔ c.previous? b = some a
  /-- Following `next` links comes to an end. -/
  ends : ∀ id, ∃ n, c.nextAfter n id = none
  /-- Only linked nodes have links. -/
  idle : ∀ id s, c.state? id = some s → s ≠ .linked → c.next? id = none ∧ c.previous? id = none
  head_linked : ∀ id, c.head = some id → c.state? id = some .linked
  headless : c.head = none → ∀ id, c.state? id ≠ some .linked

/-- A link that is matched leads to a node of the table. -/
theorem known_of_symmetric (symmetric : ∀ a b, c.next? a = some b ↔ c.previous? b = some a)
    (a b : NodeId) (link : c.next? a = some b ∨ c.previous? a = some b) : c.Known b := by
  rcases link with next | previous
  · exact known_of_previous? ((symmetric a b).mp next)
  · exact known_of_next? ((symmetric b a).mpr previous)

/-! ### Ranks -/

/-- A number for each node that goes down along the links. -/
def Ranked (c : Chain) (rank : NodeId → Nat) : Prop :=
  ∀ a b, c.next? a = some b → rank b < rank a

theorem WellFormed.exists_rank (wf : c.WellFormed) : ∃ rank, c.Ranked rank := by
  refine ⟨fun id => Nat.find (wf.ends id), ?_⟩
  intro a b next
  show Nat.find (wf.ends b) < Nat.find (wf.ends a)
  have stops := Nat.find_spec (wf.ends a)
  cases h : Nat.find (wf.ends a) with
  | zero => simp [h, nextAfter] at stops
  | succ n =>
    rw [h, nextAfter, next, Option.bind_some] at stops
    exact Nat.lt_succ_of_le (Nat.find_min' _ stops)

theorem ends_of_ranked {rank : NodeId → Nat} (ranked : c.Ranked rank) (id : NodeId) :
    ∃ n, c.nextAfter n id = none := by
  induction h : rank id using Nat.strong_induction_on generalizing id with
  | _ k ih =>
    subst h
    cases next : c.next? id with
    | none => exact ⟨1, by simp [nextAfter, next]⟩
    | some b =>
      obtain ⟨n, stops⟩ := ih _ (ranked id b next) b rfl
      exact ⟨n + 1, by simp [nextAfter, next, stops]⟩

theorem Ranked.pairwise {rank : NodeId → Nat} (ranked : c.Ranked rank) (path : IsPath c.next? l) :
    l.Pairwise fun x y => rank y < rank x := by
  have : Trans (fun x y => rank y < rank x) (fun x y => rank y < rank x)
      (fun x y : NodeId => rank y < rank x) := ⟨fun h h' => Nat.lt_trans h' h⟩
  exact List.isChain_iff_pairwise.mp (List.IsChain.imp ranked path)

/-! ### Paths along the links -/

theorem WellFormed.path_nodup (wf : c.WellFormed) (path : IsPath c.next? l) : l.Nodup := by
  obtain ⟨rank, ranked⟩ := wf.exists_rank
  refine (ranked.pairwise path).imp ?_
  rintro x y lower rfl
  exact Nat.lt_irrefl _ lower

theorem path_known (inRange : ∀ a b, c.next? a = some b → c.Known b)
    (path : IsPath c.next? (a :: l)) (known : c.Known a) : ∀ x ∈ a :: l, c.Known x := by
  induction l generalizing a with
  | nil => simpa using known
  | cons b l ih =>
    obtain ⟨next, path⟩ := Trail.isPath_cons_cons.mp path
    intro x member
    rcases List.mem_cons.mp member with rfl | member
    · exact known
    · exact ih path (inRange a b next) x member

theorem WellFormed.path_known (wf : c.WellFormed) (path : IsPath c.next? (a :: l))
    (known : c.Known a) : ∀ x ∈ a :: l, c.Known x :=
  Chain.path_known (fun a b next => wf.inRange a b (.inl next)) path known

theorem WellFormed.path_known_of_mem (wf : c.WellFormed) (path : IsPath c.next? l) (member : a ∈ l)
    (known : c.Known a) : ∀ x ∈ l, c.Known x := by
  cases l with
  | nil => simp
  | cons first rest =>
    refine wf.path_known path ?_
    cases rest with
    | nil => rwa [← List.mem_singleton.mp member]
    | cons b rest => exact known_of_next? (Trail.isPath_cons_cons.mp path).1

theorem length_le_size (nodup : l.Nodup) (known : ∀ x ∈ l, c.Known x) : l.length ≤ c.size := by
  have distinct : (l.map NodeId.index).Nodup := nodup.map fun x y => NodeId.index_inj.mp
  have bounded : l.map NodeId.index ⊆ List.range c.size := by
    intro i member
    obtain ⟨x, inList, rfl⟩ := List.mem_map.mp member
    exact List.mem_range.mpr (known_iff_lt.mp (known x inList))
  simpa using (List.subperm_of_subset distinct bounded).length_le

theorem WellFormed.path_length_le (wf : c.WellFormed) (path : IsPath c.next? l) (member : a ∈ l)
    (known : c.Known a) : l.length ≤ c.size :=
  length_le_size (wf.path_nodup path) (wf.path_known_of_mem path member known)

/-- Walking back along a path. -/
theorem WellFormed.path_reverse (wf : c.WellFormed) :
    IsPath c.previous? l.reverse ↔ IsPath c.next? l := by
  rw [IsPath, List.isChain_reverse, IsPath]
  simp only [wf.symmetric]

/-! ### Runs -/

/-- Nodes linked one after another, with nothing before the first and nothing after the last. -/
structure IsRun (c : Chain) (l : List NodeId) : Prop where
  path : IsPath c.next? l
  first : ∀ a ∈ l.head?, c.previous? a = none
  last : ∀ a ∈ l.getLast?, c.next? a = none

theorem WellFormed.exists_after (wf : c.WellFormed) (id : NodeId) :
    ∃ l, IsPath c.next? (id :: l) ∧ ∀ a ∈ (id :: l).getLast?, c.next? a = none := by
  obtain ⟨rank, ranked⟩ := wf.exists_rank
  induction h : rank id using Nat.strong_induction_on generalizing id with
  | _ k ih =>
    subst h
    cases next : c.next? id with
    | none => exact ⟨[], by simp, by simpa using next⟩
    | some b =>
      obtain ⟨l, path, last⟩ := ih _ (ranked id b next) b rfl
      exact ⟨b :: l, by simp [next, path], by simpa using last⟩

theorem WellFormed.exists_before (wf : c.WellFormed) (known : c.Known id)
    (path : IsPath c.next? (id :: l)) :
    ∃ before, IsPath c.next? (before ++ id :: l) ∧
      ∀ a ∈ (before ++ id :: l).head?, c.previous? a = none := by
  -- Each step back makes the path longer, and no path is longer than the table.
  induction h : c.size - l.length generalizing id l with
  | zero =>
    have bound := wf.path_length_le path List.mem_cons_self known
    simp only [List.length_cons] at bound
    omega
  | succ k ih =>
    cases previous : c.previous? id with
    | none => exact ⟨[], by simpa using path, by simpa using previous⟩
    | some b =>
      have next := (wf.symmetric b id).mpr previous
      obtain ⟨before, longer, first⟩ := ih (known_of_next? next)
        (Trail.isPath_cons_cons.mpr ⟨next, path⟩) (by simp only [List.length_cons]; omega)
      exact ⟨before ++ [b], by simpa using longer, by simpa using first⟩

/-- Every node of a well-formed chain stands in a run. -/
theorem WellFormed.exists_run (wf : c.WellFormed) (known : c.Known id) :
    ∃ before after, c.IsRun (before ++ id :: after) := by
  obtain ⟨after, path, last⟩ := wf.exists_after id
  obtain ⟨before, path, first⟩ := wf.exists_before known path
  exact ⟨before, after, path, first, by simpa [List.getLast?_append] using last⟩

theorem IsRun.next?_of_append (run : c.IsRun (before ++ id :: after)) :
    c.next? id = after.head? := by
  cases after with
  | nil => exact run.last id (by simp)
  | cons b after => exact (Trail.isPath_cons_cons.mp run.path.right).1

theorem IsRun.previous?_of_append (wf : c.WellFormed) (run : c.IsRun (before ++ id :: after)) :
    c.previous? id = before.getLast? := by
  rcases List.eq_nil_or_concat before with rfl | ⟨before, b, rfl⟩
  · exact run.first id (by simp)
  · have path := run.path
    simp only [List.concat_eq_append, List.append_assoc, List.singleton_append] at path
    have next := (Trail.isPath_cons_cons.mp path.right).1
    simpa using (wf.symmetric b id).mp next

/-! ### The chain proper -/

theorem WellFormed.first?_eq_of_run (wf : c.WellFormed) (run : c.IsRun (before ++ id :: after))
    (head : c.head = some id) : c.first? = (before ++ id :: after).head? := by
  have known := known_of_state? (wf.head_linked id head)
  have path : IsPath c.next? (before ++ [id]) := (Trail.isPath_append_cons.mp run.path).1
  have bound := wf.path_length_le path (by simp) known
  have back : IsPath c.previous? (id :: before.reverse) := by
    simpa using wf.path_reverse.mpr path
  have same : (before ++ id :: after).head? = some ((id :: before.reverse).getLast (by simp)) := by
    cases before <;> simp
  have walk : Trail.IsWalk c.previous? (fun _ => false) c.size id before.reverse :=
    Trail.isWalk_of_path back (by simp)
      (by simp only [List.length_append, List.length_reverse] at bound ⊢; omega) (run.first _ same)
  rw [first?, head, Option.map_some, Trail.last_eq_of_isWalk walk, same]

theorem WellFormed.order_eq_of_run (wf : c.WellFormed) (run : c.IsRun l) (member : id ∈ l)
    (head : c.head = some id) : c.order = l := by
  obtain ⟨before, after, rfl⟩ := List.append_of_mem member
  have first := wf.first?_eq_of_run run head
  have bound := wf.path_length_le run.path member (known_of_state? (wf.head_linked id head))
  cases same : before ++ id :: after with
  | nil => simp at same
  | cons f rest =>
    rw [same] at first run bound
    rw [order, first]
    refine Trail.toList_eq_of_isWalk (Trail.isWalk_of_path run.path (by simp) ?_ ?_)
    · simp only [List.length_cons] at bound
      omega
    · exact run.last _ (List.getLast?_eq_some_getLast (by simp))

theorem WellFormed.order_isRun (wf : c.WellFormed) (head : c.head = some id) :
    c.IsRun c.order ∧ id ∈ c.order := by
  obtain ⟨before, after, run⟩ := wf.exists_run (known_of_state? (wf.head_linked id head))
  rw [wf.order_eq_of_run run (by simp) head]
  exact ⟨run, by simp⟩

theorem order_of_headless (head : c.head = none) : c.order = [] := by
  simp [order, first?, head]

end Restyle.Chain
