import Mathlib.Logic.Relation
import Restyle.Chain.Command
import Restyle.Proofs.Chain.Edits

/-!
# What can be reached along the links

Walks along the links are bounded by the size of the table. The bound cuts none of them short, even
if the links loop or do not agree with each other: a walk to a node passes no node twice, so it has
no more nodes than the table (`InRange.exists_walk`).
-/

namespace Restyle.Chain
open Trail (IsPath IsWalk)
open Outcome
variable {c : Chain} {a b x y first last : NodeId} {ids : List NodeId}

/-- Following `next` links from `a` comes to `b`. -/
def Leads (c : Chain) (a b : NodeId) : Prop :=
  Relation.ReflTransGen (fun x y => c.next? x = some y) a b

theorem Leads.refl (c : Chain) (a : NodeId) : c.Leads a a := Relation.ReflTransGen.refl

theorem Leads.tail (leads : c.Leads a x) (next : c.next? x = some y) : c.Leads a y :=
  Relation.ReflTransGen.tail leads next

theorem leads_iff_path : c.Leads a b ↔
    ∃ l, IsPath c.next? (a :: l) ∧ (a :: l).getLast (by simp) = b := by
  constructor
  · intro leads
    obtain ⟨l, path, final⟩ := List.exists_isChain_cons_of_relationReflTransGen leads
    exact ⟨l, path, final⟩
  · rintro ⟨l, path, final⟩
    exact List.relationReflTransGen_of_exists_isChain_cons l path final

structure IsWay (c : Chain) (first last : NodeId) (ids : List NodeId) : Prop where
  path : IsPath c.next? ids
  starts : ids.head? = some first
  ends : ids.getLast? = some last

theorem isWay_cons {l : List NodeId} : c.IsWay first last (a :: l) ↔
    a = first ∧ IsPath c.next? (a :: l) ∧ (a :: l).getLast (by simp) = last := by
  constructor
  · rintro ⟨path, starts, ends⟩
    rw [List.getLast?_eq_some_getLast (by simp)] at ends
    exact ⟨Option.some.inj starts, path, Option.some.inj ends⟩
  · rintro ⟨rfl, path, final⟩
    refine ⟨path, rfl, ?_⟩
    rw [List.getLast?_eq_some_getLast (by simp), final]

/-- Links lead to nodes of the table. Nothing is said about where in the table. -/
def InRange (c : Chain) : Prop :=
  ∀ a b, c.next? a = some b ∨ c.previous? a = some b → c.Known b

theorem inRange_of_nodes (all : ∀ node ∈ c.nodes,
    ∀ b ∈ node.next.toList ++ node.previous.toList, b.index < c.size) : c.InRange := by
  intro a b link
  have found : ∃ node, c.get? a = some node ∧ (node.next = some b ∨ node.previous = some b) := by
    rcases link with next | previous
    · obtain ⟨node, found, same⟩ := Option.bind_eq_some_iff.mp next
      exact ⟨node, found, .inl same⟩
    · obtain ⟨node, found, same⟩ := Option.bind_eq_some_iff.mp previous
      exact ⟨node, found, .inr same⟩
  obtain ⟨node, found, link⟩ := found
  exact known_iff_lt.mpr (all node (Array.mem_of_getElem? found) b (by simpa using link))

/-! ### Walks -/

section InRange
variable (inRange : c.InRange) (known : c.Known first)
include inRange known

/-- Where links lead, a walk comes within as many nodes as the table has, and every way there starts
with the nodes of that walk. -/
theorem InRange.exists_walk (leads : c.Leads first last) :
    ∃ l, IsPath c.next? (first :: l) ∧ (first :: l).getLast (by simp) = last ∧ (first :: l).Nodup ∧
      (∀ n, c.size - 1 ≤ n → IsWalk c.next? (· == last) n first l) ∧
      ∀ other, c.IsWay first last other → first :: l <+: other := by
  obtain ⟨k, path, final⟩ := leads_iff_path.mp leads
  obtain ⟨l, -, arrived, walked⟩ :=
    Trail.exists_walk_of_path (· == last) path (by simp [final])
  have nodup := (walked l.length (Nat.le_refl _)).nodup arrived
  have path := (walked l.length (Nat.le_refl _)).path
  have bound := length_le_size nodup (path_known (fun a b next => inRange a b (.inl next)) path known)
  rw [List.length_cons] at bound
  refine ⟨l, path, by simpa using arrived, nodup, fun n enough => walked n (by omega), ?_⟩
  intro other way
  cases other with
  | nil => cases way.starts
  | cons a other =>
    obtain ⟨rfl, path', final'⟩ := isWay_cons.mp way
    obtain ⟨m, starts, -, walked'⟩ :=
      Trail.exists_walk_of_path (· == last) path' (by simp [final'])
    -- Walks of one bound from one node to one node are the same.
    have same : l = m := (walked (max l.length m.length) (Nat.le_max_left ..)).unique
      (walked' (max l.length m.length) (Nat.le_max_right ..))
    rw [same]
    exact List.cons_prefix_cons.mpr ⟨rfl, starts⟩

theorem InRange.reaches_iff : c.reaches first last = true ↔ c.Leads first last := by
  simp only [reaches, ahead, beq_iff_eq]
  constructor
  · intro arrived
    obtain ⟨l, walk, -⟩ := Trail.walk_isWalk c.next? (· == last) (c.size - 1) first
    exact leads_iff_path.mpr ⟨l, walk.path, (Trail.last_eq_of_isWalk walk).symm.trans arrived⟩
  · intro leads
    obtain ⟨l, -, final, -, walked, -⟩ := inRange.exists_walk known leads
    rw [Trail.last_eq_of_isWalk (walked _ (Nat.le_refl _)), final]

theorem InRange.exists_span (leads : c.Leads first last) :
    ∃ ids, c.span first last = .ok ids ∧ c.IsWay first last ids ∧ ids.Nodup ∧
      ∀ other, c.IsWay first last other → ids <+: other := by
  obtain ⟨l, path, final, nodup, walked, least⟩ := inRange.exists_walk known leads
  have walk := walked c.size (by omega)
  have knownLast : c.Known last := by
    apply path_known (fun a b next => inRange a b (.inl next)) path known
    rw [← final]
    exact List.getLast_mem _
  obtain ⟨node, found⟩ := known
  obtain ⟨node', found'⟩ := knownLast
  refine ⟨first :: l, ?_, isWay_cons.mpr ⟨rfl, path, final⟩, nodup, least⟩
  simp only [span, bind_ok, node_ok]
  refine ⟨node, found, node', found', ?_⟩
  rw [if_pos ((Trail.last_eq_of_isWalk walk).trans final), Trail.toList_eq_of_isWalk walk]
  rfl

omit inRange known in
theorem leads_of_span (span : c.span first last = .ok ids) : c.Leads first last := by
  simp only [Chain.span, bind_ok] at span
  obtain ⟨-, -, -, -, found⟩ := span
  obtain ⟨l, walk, -⟩ := Trail.walk_isWalk c.next? (· == last) c.size first
  split at found
  · rename_i arrived
    exact leads_iff_path.mpr ⟨l, walk.path, (Trail.last_eq_of_isWalk walk).symm.trans arrived⟩
  · exact (throw_ok.mp found).elim

end InRange

/-- Bounded walks decide what can be reached, and a span is the shortest way: every other one starts
with it. -/
theorem walks_decide_reachability (inRange : c.InRange) (known : c.Known first) (last : NodeId) :
    (c.reaches first last = true ↔ c.Leads first last) ∧
    ((∃ ids, c.span first last = .ok ids) ↔ c.Leads first last) ∧
    ∀ ids, c.span first last = .ok ids → c.IsWay first last ids ∧ ids.Nodup ∧
      ∀ other, c.IsWay first last other → ids <+: other := by
  refine ⟨inRange.reaches_iff known, ⟨?_, ?_⟩, ?_⟩
  · rintro ⟨ids, span⟩
    exact leads_of_span span
  · intro leads
    obtain ⟨ids, span, -⟩ := inRange.exists_span known leads
    exact ⟨ids, span⟩
  · intro ids span
    obtain ⟨ids', span', facts⟩ := inRange.exists_span known (leads_of_span span)
    obtain rfl : ids' = ids := Except.ok.inj (span'.symm.trans span)
    exact facts

/-- A loop through the whole table but for its last node, which nothing leads to. From the second
node the way to the first takes in all others of the loop. -/
theorem walks_decide_reachability_loop :
    let c := ({ capacity := 4 } : Chain).afterAll (List.replicate 4 (.create ⟨.identifier, ['x']⟩) ++
      [.insertAfter (.ofIndex 0) (.ofIndex 0), .insertAfter (.ofIndex 0) (.ofIndex 1),
        .insertAfter (.ofIndex 1) (.ofIndex 2)])
    c.InRange ∧ c.Known (.ofIndex 1) ∧
    c.next? (.ofIndex 2) = some (.ofIndex 0) ∧ c.next? (.ofIndex 0) = some (.ofIndex 1) ∧
    c.span (.ofIndex 1) (.ofIndex 0) = .ok [.ofIndex 1, .ofIndex 2, .ofIndex 0] ∧
    (∀ other, c.IsWay (.ofIndex 1) (.ofIndex 0) other →
      [NodeId.ofIndex 1, .ofIndex 2, .ofIndex 0] <+: other) ∧
    c.Leads (.ofIndex 1) (.ofIndex 0) ∧ ¬ c.Leads (.ofIndex 1) (.ofIndex 3) := by
  intro c
  have inRange : c.InRange := by
    apply inRange_of_nodes
    decide
  have known : c.Known (.ofIndex 1) := known_iff_lt.mpr (by decide)
  have span : c.span (.ofIndex 1) (.ofIndex 0) = .ok [.ofIndex 1, .ofIndex 2, .ofIndex 0] := by decide
  obtain ⟨-, leads, shortest⟩ := walks_decide_reachability inRange known (.ofIndex 0)
  obtain ⟨apart, -⟩ := walks_decide_reachability inRange known (.ofIndex 3)
  refine ⟨inRange, known, by decide, by decide, span, (shortest _ span).2.2, leads.mp ⟨_, span⟩, ?_⟩
  rw [← apart]
  decide

end Restyle.Chain
