import Restyle.Proofs.Chain.Edits
import Restyle.Proofs.Chain.Reachable

/-!
# Joining two nodes

A link between two nodes closes no loop if the first cannot be reached from the second
(`link_wellFormed`), and that is what `join` checks. Taking out the nodes off the chain proper then
leaves whole runs behind (`orphanStray_wellFormed`).
-/

namespace Restyle.Chain
open Trail (IsPath)
open Outcome
variable {c d : Chain} {a b id x y : NodeId}

theorem WellFormed.reaches_iff (wf : c.WellFormed) (known : c.Known a) :
    c.reaches a b = true ↔ c.Leads a b :=
  InRange.reaches_iff wf.inRange known

/-! ### Linking -/

section Link
variable (wf : c.WellFormed) (ha : c.Known a) (hb : c.Known b)
include wf

include ha in
theorem WellFormed.next?_link_iff : (c.link a b).next? x = some y ↔
    (x = a ∧ y = b) ∨ (x ≠ a ∧ y ≠ b ∧ c.next? x = some y) := by
  rw [next?_link ha fun z h => wf.inRange b z (.inr h)]
  simp only [← wf.symmetric]
  by_cases hx : x = a
  · simp [hx, eq_comm]
  · by_cases hy : y = b
    · subst hy
      by_cases next : c.next? x = some y <;> simp [hx, next]
    · by_cases next : c.next? x = some b
      · simp [hx, next, Ne.symm hy]
      · simp [hx, hy, next]

include hb in
theorem WellFormed.previous?_link_iff : (c.link a b).previous? y = some x ↔
    (x = a ∧ y = b) ∨ (x ≠ a ∧ y ≠ b ∧ c.previous? y = some x) := by
  rw [previous?_link hb fun z h => wf.inRange a z (.inl h)]
  simp only [wf.symmetric]
  by_cases hy : y = b
  · simp [hy, eq_comm]
  · by_cases hx : x = a
    · subst hx
      by_cases previous : c.previous? y = some x <;> simp [hy, previous]
    · by_cases previous : c.previous? y = some a
      · simp [hy, previous, Ne.symm hx]
      · simp [hx, hy, previous]

include ha hb

/-- A link that closes no loop keeps the rest in order. The head moves to its start. -/
theorem WellFormed.link_wellFormed (apart : ¬ c.Leads b a) :
    ((c.link a b).withHead (some a)).WellFormed := by
  have symmetric : ∀ x y, ((c.link a b).withHead (some a)).next? x = some y ↔
      ((c.link a b).withHead (some a)).previous? y = some x := by
    intro x y
    rw [next?_withHead, previous?_withHead, wf.next?_link_iff ha, wf.previous?_link_iff hb,
      wf.symmetric]
  refine ⟨known_of_symmetric symmetric, symmetric, ?_, ?_, ?_, by simp⟩
  · -- What can be reached from `b` keeps its rank, all else moves up above it.
    classical
    obtain ⟨rank, ranked⟩ := wf.exists_rank
    have lifted : ((c.link a b).withHead (some a)).Ranked
        fun x => if c.Leads b x then rank x else rank x + rank b + 1 := by
      intro x y next
      rw [next?_withHead] at next
      beta_reduce
      rcases (wf.next?_link_iff ha).mp next with ⟨rfl, rfl⟩ | ⟨-, -, link⟩
      · rw [if_pos (Leads.refl c y), if_neg apart]
        omega
      · have lower := ranked x y link
        by_cases hx : c.Leads b x
        · rw [if_pos hx, if_pos (hx.tail link)]
          exact lower
        · rw [if_neg hx]
          split <;> omega
    exact ends_of_ranked lifted
  · intro x s state idle
    rw [state?_withHead, state?_link ha hb] at state
    split at state
    · exact (idle (Option.some.inj state).symm).elim
    · rename_i other
      obtain ⟨next, previous⟩ := wf.idle x s state idle
      obtain ⟨notFirst, notSecond⟩ := not_or.mp other
      refine ⟨Option.eq_none_iff_forall_ne_some.mpr ?_, Option.eq_none_iff_forall_ne_some.mpr ?_⟩
      · intro y link
        rw [next?_withHead, wf.next?_link_iff ha] at link
        simp [notFirst, next] at link
      · intro y link
        rw [previous?_withHead, wf.previous?_link_iff hb] at link
        simp [notSecond, previous] at link
  · rintro x ⟨rfl⟩
    rw [state?_withHead, state?_link ha hb, if_pos (.inl rfl)]

end Link

/-! ### Taking out what is off the chain proper -/

/-- The chain proper is closed under links. -/
theorem WellFormed.mem_order_iff_of_next? (wf : c.WellFormed) (next : c.next? x = some y) :
    x ∈ c.order ↔ y ∈ c.order := by
  obtain ⟨h, head⟩ := wf.exists_head (wf.linked_of_next? next).1
  obtain ⟨run, -⟩ := wf.order_isRun head
  constructor
  · intro member
    obtain ⟨before, after, eq⟩ := List.append_of_mem member
    rw [eq] at run ⊢
    rw [run.next?_of_append] at next
    simp [List.mem_of_mem_head? next]
  · intro member
    obtain ⟨before, after, eq⟩ := List.append_of_mem member
    rw [eq] at run ⊢
    have previous := (wf.symmetric x y).mp next
    rw [run.previous?_of_append wf] at previous
    simp [List.mem_of_getLast? previous]

theorem WellFormed.orphanStray_next?_iff (wf : c.WellFormed) :
    c.orphanStray.next? x = some y ↔ c.next? x = some y ∧ x ∈ c.order := by
  rw [next?_orphanStray]
  by_cases member : x ∈ c.order
  · simp [member]
  · by_cases linked : c.state? x = some .linked
    · simp [member, linked]
    · have none : c.next? x ≠ some y := fun next => linked (wf.linked_of_next? next).1
      simp [member, none]

theorem WellFormed.orphanStray_previous?_iff (wf : c.WellFormed) :
    c.orphanStray.previous? y = some x ↔ c.previous? y = some x ∧ y ∈ c.order := by
  rw [previous?_orphanStray]
  by_cases member : y ∈ c.order
  · simp [member]
  · by_cases linked : c.state? y = some .linked
    · simp [member, linked]
    · have none : c.previous? y ≠ some x := fun previous =>
        linked (wf.linked_of_next? ((wf.symmetric x y).mpr previous)).2
      simp [member, none]

theorem WellFormed.orphanStray_wellFormed (wf : c.WellFormed) {h : NodeId} (head : c.head = some h) :
    c.orphanStray.WellFormed := by
  have symmetric : ∀ x y,
      c.orphanStray.next? x = some y ↔ c.orphanStray.previous? y = some x := by
    intro x y
    rw [wf.orphanStray_next?_iff, wf.orphanStray_previous?_iff, ← wf.symmetric]
    exact and_congr_right fun next => wf.mem_order_iff_of_next? next
  refine ⟨known_of_symmetric symmetric, symmetric, ?_, ?_, ?_, by simp [head]⟩
  · obtain ⟨rank, ranked⟩ := wf.exists_rank
    exact ends_of_ranked fun x y next => ranked x y (wf.orphanStray_next?_iff.mp next).1
  · intro x s state idle
    rw [state?_orphanStray] at state
    rw [next?_orphanStray, previous?_orphanStray]
    split at state
    · rename_i stray
      simp [stray]
    · rename_i kept
      simp [kept, wf.idle x s state idle]
  · intro x same
    rw [head_orphanStray, head] at same
    obtain rfl := Option.some.inj same
    rw [state?_orphanStray, if_neg fun stray => stray.2 (wf.order_isRun head).2]
    exact wf.head_linked h head

/-! ### The edit -/

theorem checkJoin_ok : checkJoin a b c = .ok () ↔
    c.Usable a ∧ c.Usable b ∧ a ≠ b ∧ c.reaches b a = false := by
  simp only [checkJoin, bind_ok, check_ok, last_check_ok, pure_ok, and_true, ← checkUsable_ok]
  constructor
  · rintro ⟨⟨⟩, left, ⟨⟩, right, different, apart⟩
    exact ⟨left, right, different, by simpa using apart⟩
  · rintro ⟨left, right, different, apart⟩
    exact ⟨(), left, (), right, different, by simpa using apart⟩

theorem join_isOk : (∃ d, join a b c = .ok () d) ↔
    c.Usable a ∧ c.Usable b ∧ a ≠ b ∧ c.reaches b a = false := by
  simp only [join, commit_ok]
  constructor
  · rintro ⟨_, ⟨⟩, ok, -⟩
    exact checkJoin_ok.mp ok
  · intro ok
    exact ⟨_, (), checkJoin_ok.mpr ok, rfl⟩

/-- A join links two usable nodes, and then takes out what is off the chain proper. -/
theorem WellFormed.join_ok (wf : c.WellFormed) {u : Unit} (done : join a b c = .ok u d) :
    c.Usable a ∧ c.Usable b ∧ ((c.link a b).withHead (some a)).WellFormed ∧
      d = ((c.link a b).withHead (some a)).orphanStray.countEdit := by
  obtain ⟨⟨⟩, check, rfl⟩ := commit_ok.mp done
  obtain ⟨usableA, usableB, -, loop⟩ := checkJoin_ok.mp check
  have apart : ¬ c.Leads b a := by
    rw [← wf.reaches_iff usableB.known, loop]
    simp
  exact ⟨usableA, usableB, wf.link_wellFormed usableA.known usableB.known apart, rfl⟩

theorem WellFormed.join_wellFormed (wf : c.WellFormed) {u : Unit} (done : join a b c = .ok u d) :
    d.WellFormed := by
  obtain ⟨-, -, linked, rfl⟩ := wf.join_ok done
  exact (linked.orphanStray_wellFormed head_withHead).countEdit

end Restyle.Chain
