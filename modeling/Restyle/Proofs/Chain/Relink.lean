import Restyle.Proofs.Chain.Strays

/-!
# What a join makes of two runs

A join keeps one run up to its first node and another one from its second node on. Whatever else was
linked is taken out (`join_cuts_and_joins`).
-/

namespace Restyle.Chain
open Trail (IsPath)
open Outcome
variable {c d : Chain} {a b x : NodeId} {before rest lead after l : List NodeId}

theorem leads_of_path (path : IsPath c.next? (a :: l)) (member : x ∈ a :: l) : c.Leads a x := by
  induction l generalizing a with
  | nil =>
    rw [List.mem_singleton.mp member]
    exact .refl c a
  | cons b l ih =>
    obtain ⟨next, path⟩ := Trail.isPath_cons_cons.mp path
    rcases List.mem_cons.mp member with rfl | member
    · exact .refl c x
    · exact Relation.ReflTransGen.head next (ih path member)

theorem leads_to_last (path : IsPath c.next? (before ++ [a])) (member : x ∈ before ++ [a]) :
    c.Leads x a := by
  induction before with
  | nil =>
    rw [List.mem_singleton.mp member]
    exact .refl c a
  | cons y before ih =>
    rcases List.mem_cons.mp member with rfl | member
    · exact leads_of_path path (by simp)
    · exact ih path.of_cons member

/-! ### The run through a new link -/

section Link
variable (wf : c.WellFormed) (ha : c.Known a) (hb : c.Known b) (apart : ¬ c.Leads b a)
include wf ha apart

/-- The links in front of `a` stay as they are. -/
theorem WellFormed.next?_link_before (left : c.IsRun (before ++ a :: rest)) (member : x ∈ before) :
    (c.link a b).next? x = c.next? x := by
  have path := (Trail.isPath_append_cons.mp left.path).1
  have notLast : x ≠ a := by
    rintro rfl
    have nodup := wf.path_nodup path
    simp only [List.nodup_append, List.mem_singleton] at nodup
    exact nodup.2.2 x member x rfl rfl
  rw [next?_link ha fun y previous => wf.inRange b y (.inr previous), if_neg notLast, if_neg]
  intro previous
  have next := (wf.symmetric x b).mpr previous
  rcases path.next_mem (List.mem_append_left _ member) next with inside | final
  · exact apart (leads_to_last path (List.mem_of_mem_tail inside))
  · simp [Ne.symm notLast] at final

/-- So do the links from `b` on. -/
theorem WellFormed.next?_link_after (right : c.IsRun (lead ++ b :: after)) (member : x ∈ b :: after) :
    (c.link a b).next? x = c.next? x := by
  have path := right.path.right
  have notFirst : x ≠ a := by
    rintro rfl
    exact apart (leads_of_path path member)
  rw [next?_link ha fun y previous => wf.inRange b y (.inr previous), if_neg notFirst, if_neg]
  intro previous
  have next := (wf.symmetric x b).mpr previous
  rcases path.next_mem member next with inside | final
  · exact (List.nodup_cons.mp (wf.path_nodup path)).1 inside
  · have ends := right.last x (by simpa [List.getLast?_append] using final)
    simp [ends] at next

include hb

theorem WellFormed.isRun_link (left : c.IsRun (before ++ a :: rest))
    (right : c.IsRun (lead ++ b :: after)) : (c.link a b).IsRun (before ++ a :: b :: after) := by
  have path := (Trail.isPath_append_cons.mp left.path).1
  refine ⟨?_, ?_, ?_⟩
  · apply Trail.isPath_append_cons.mpr
    refine ⟨path.congr fun x member => ?_, Trail.isPath_cons_cons.mpr ⟨?_, ?_⟩⟩
    · exact wf.next?_link_before ha apart left (by simpa using member)
    · rw [next?_link ha fun y previous => wf.inRange b y (.inr previous), if_pos rfl]
    · refine right.path.right.congr fun x member => ?_
      exact wf.next?_link_after ha apart right (List.dropLast_subset _ member)
  · intro x first
    have here : x ∈ (before ++ a :: rest).head? := by cases before <;> simpa using first
    have notSecond : x ≠ b := by
      rintro rfl
      refine apart (leads_to_last path ?_)
      cases before <;> simp_all
    rw [previous?_link hb fun y next => wf.inRange a y (.inl next), if_neg notSecond,
      left.first x here]
    simp
  · intro x last
    have here : x ∈ (b :: after).getLast? := by simpa [List.getLast?_append] using last
    rw [wf.next?_link_after ha apart right (List.mem_of_getLast? here)]
    exact right.last x (by simpa [List.getLast?_append] using here)

end Link

/-! ### The edit -/

theorem checkJoin_eq (usableA : c.Usable a) (usableB : c.Usable b) (different : a ≠ b) :
    checkJoin a b c = if c.reaches b a then .error (.linkLoop a b) else .ok () := by
  simp only [checkJoin, checkUsable_ok.mpr usableA, checkUsable_ok.mpr usableB, if_neg different]
  rfl

theorem WellFormed.join_error_iff (wf : c.WellFormed) (usableA : c.Usable a) (usableB : c.Usable b)
    (different : a ≠ b) : join a b c = .error (.linkLoop a b) c ↔ c.Leads b a := by
  rw [← wf.reaches_iff usableB.known]
  unfold join commit
  rw [checkJoin_eq usableA usableB different]
  cases c.reaches b a <;> simp

theorem IsRun.withHead {l : List NodeId} {h : Option NodeId} (run : c.IsRun l) :
    (c.withHead h).IsRun l :=
  ⟨run.path, run.first, run.last⟩

theorem WellFormed.order_join (wf : c.WellFormed) (done : join a b c = .ok () d)
    (left : c.IsRun (before ++ a :: rest)) (right : c.IsRun (lead ++ b :: after)) :
    d.order = before ++ a :: b :: after := by
  obtain ⟨-, -, -, loop⟩ := join_isOk.mp ⟨d, done⟩
  obtain ⟨usableA, usableB, linked, rfl⟩ := wf.join_ok done
  have apart : ¬ c.Leads b a := by
    rw [← wf.reaches_iff usableB.known, loop]
    simp
  have run := wf.isRun_link usableA.known usableB.known apart left right
  rw [order_countEdit, linked.order_orphanStray head_withHead]
  exact linked.order_eq_of_run run.withHead (by simp) head_withHead

/-- A node that the join leaves out is an orphan if it was linked, and as it was if not. -/
theorem WellFormed.state?_join (wf : c.WellFormed) (done : join a b c = .ok () d)
    (outside : x ∉ d.order) :
    d.state? x = if c.state? x = some .linked then some .orphaned else c.state? x := by
  obtain ⟨usableA, usableB, linked, rfl⟩ := wf.join_ok done
  obtain ⟨first, second⟩ :=
    linked.mem_order_link usableA.known fun y previous => wf.inRange b y (.inr previous)
  rw [order_countEdit, linked.order_orphanStray head_withHead] at outside
  have other : ¬ (x = a ∨ x = b) := by
    rintro (rfl | rfl)
    · exact outside first
    · exact outside second
  rw [state?_countEdit, state?_orphanStray, state?_withHead,
    state?_link usableA.known usableB.known, if_neg other]
  simp [outside]

/-- A join fails where it would close a loop. Otherwise the chain proper is the run of `a` up to `a`
and then the run of `b` from `b` on. All other linked nodes are orphaned, and nodes without a place
stay without one. -/
theorem join_cuts_and_joins (wf : c.WellFormed) (usableA : c.Usable a) (usableB : c.Usable b)
    (different : a ≠ b) :
    (join a b c = .error (.linkLoop a b) c ↔ c.Leads b a) ∧
    (¬ c.Leads b a → ∃ d before rest lead after, join a b c = .ok () d ∧
      c.IsRun (before ++ a :: rest) ∧ c.IsRun (lead ++ b :: after) ∧
      d.order = (before ++ [a]) ++ (b :: after) ∧
      (∀ x ∉ d.order, c.state? x = some .linked → d.state? x = some .orphaned) ∧
      (∀ x ∉ d.order, c.state? x = some .unlinked → d.state? x = some .unlinked) ∧
      ∀ x, d.state? x = some .linked ↔ x ∈ d.order) := by
  refine ⟨wf.join_error_iff usableA usableB different, fun apart => ?_⟩
  have clear : c.reaches b a = false := by
    rw [← wf.reaches_iff usableB.known] at apart
    simpa using apart
  obtain ⟨d, done⟩ := join_isOk.mpr ⟨usableA, usableB, different, clear⟩
  obtain ⟨before, rest, left⟩ := wf.exists_run usableA.known
  obtain ⟨lead, after, right⟩ := wf.exists_run usableB.known
  refine ⟨d, before, rest, lead, after, done, left, right, ?_, ?_, ?_, wf.join_connected done⟩
  · rw [wf.order_join done left right]
    simp
  · intro x outside linked
    rw [wf.state?_join done outside, if_pos linked]
  · intro x outside unlinked
    rw [wf.state?_join done outside, unlinked]
    rfl

/-- The front of the chain proper joined to the back of a run that was detached from it. -/
theorem join_cuts_and_joins_detached : ∃ c d : Chain, c.WellFormed ∧
    c.order = [.ofIndex 0, .ofIndex 1] ∧ c.next? (.ofIndex 2) = some (.ofIndex 3) ∧
    join (.ofIndex 0) (.ofIndex 3) c = .ok () d ∧ d.order = [.ofIndex 0, .ofIndex 3] ∧
    d.state? (.ofIndex 1) = some .orphaned ∧ d.state? (.ofIndex 2) = some .orphaned ∧
    d.state? (.ofIndex 4) = some .unlinked := by
  let start : Chain := { capacity := Limits.development.nodes }
  let c := start.afterAll [
    .create (.classify .identifier ['a']), .create (.classify .identifier ['b']),
    .create (.classify .identifier ['c']), .create (.classify .identifier ['d']),
    .create (.classify .identifier ['e']), .insertAfter (.ofIndex 0) (.ofIndex 1),
    .insertAfter (.ofIndex 2) (.ofIndex 3)]
  have starts : start.IsStart .development := .inl rfl
  have wf : c.WellFormed := (starts.wellFormed (by decide)).afterAll (by decide)
  have usableA : c.Usable (.ofIndex 0) := ⟨.linked, by decide +kernel, by simp⟩
  have usableB : c.Usable (.ofIndex 3) := ⟨.linked, by decide +kernel, by simp⟩
  have apart : ¬ c.Leads (.ofIndex 3) (.ofIndex 0) := by
    rw [← wf.reaches_iff usableB.known]
    decide +kernel
  obtain ⟨d, -, -, -, -, done, -, -, -, strays, loose, -⟩ :=
    (join_cuts_and_joins wf usableA usableB (by decide)).2 apart
  have order : d.order = [.ofIndex 0, .ofIndex 3] := by
    have made : (match join (.ofIndex 0) (.ofIndex 3) c with
      | .ok _ d => d.order
      | .error _ _ => []) = [.ofIndex 0, .ofIndex 3] := by decide +kernel
    rwa [done] at made
  have linkedB : c.state? (.ofIndex 1) = some .linked := by decide +kernel
  have linkedC : c.state? (.ofIndex 2) = some .linked := by decide +kernel
  have unlinkedE : c.state? (.ofIndex 4) = some .unlinked := by decide +kernel
  refine ⟨c, d, wf, by decide +kernel, by decide +kernel, done, order, ?_, ?_, ?_⟩
  · exact strays _ (by rw [order]; decide) linkedB
  · exact strays _ (by rw [order]; decide) linkedC
  · exact loose _ (by rw [order]; decide) unlinkedE

end Restyle.Chain
