import Mathlib.Data.List.Infix
import Restyle.Proofs.Chain.OfTokens

/-!
# Edits as list operations

On a chain whose linked nodes are all in the chain proper, an edit does to `order` what its name
says: `edits_refine_lists`.
-/

namespace Restyle.Chain
open Trail (IsPath)
variable {c d : Chain} {id n p first last : NodeId} {before mid post l : List NodeId}

/-- The linked nodes are those of the chain proper. -/
def Connected (c : Chain) : Prop := ∀ id, c.state? id = some .linked ↔ id ∈ c.order

/-- `d` has the nodes `l` for its chain proper, with the tokens they have in `c`, and the nodes
`out` are orphans of it. -/
structure Becomes (c d : Chain) (l out : List NodeId) : Prop where
  wellFormed : d.WellFormed
  connected : d.Connected
  order : d.order = l
  render : d.render = l.flatMap c.textOf
  orphaned : ∀ id ∈ out, d.state? id = some .orphaned

/-! ### The chain proper -/

theorem WellFormed.linked_of_mem_order (wf : c.WellFormed) (member : id ∈ c.order) :
    c.state? id = some .linked := by
  cases head : c.head with
  | none => simp [order_of_headless head] at member
  | some h =>
    obtain ⟨run, inside⟩ := wf.order_isRun head
    obtain ⟨before, after, eq⟩ := List.append_of_mem member
    rw [eq] at run inside
    -- A node without neighbors is alone in its run, so it is the head.
    cases next : c.next? id with
    | some y => exact (wf.linked_of_next? next).1
    | none =>
      cases previous : c.previous? id with
      | some x => exact (wf.linked_of_next? ((wf.symmetric x id).mpr previous)).2
      | none =>
        obtain rfl : after = [] := by simpa [run.next?_of_append] using next
        obtain rfl : before = [] := by simpa [run.previous?_of_append wf] using previous
        obtain rfl : h = id := by simpa using inside
        exact wf.head_linked h head

theorem WellFormed.known_of_mem_order (wf : c.WellFormed) (member : id ∈ c.order) : c.Known id :=
  known_of_state? (wf.linked_of_mem_order member)

theorem WellFormed.order_isRun_of_mem (wf : c.WellFormed) (member : id ∈ c.order) :
    c.IsRun c.order := by
  obtain ⟨h, head⟩ := wf.exists_head (wf.linked_of_mem_order member)
  exact (wf.order_isRun head).1

/-- A node of the chain proper is known, and what is around it is the run it stands in. -/
theorem WellFormed.run_of_order (wf : c.WellFormed) (order : c.order = before ++ id :: post) :
    c.Known id ∧ c.IsRun (before ++ id :: post) := by
  have member : id ∈ c.order := by simp [order]
  exact ⟨wf.known_of_mem_order member, order ▸ wf.order_isRun_of_mem member⟩

theorem WellFormed.order_nodup (wf : c.WellFormed) : c.order.Nodup := by
  cases same : c.order with
  | nil => exact List.nodup_nil
  | cons f rest =>
    have member : f ∈ c.order := by simp [same]
    rw [← same]
    exact wf.path_nodup (wf.order_isRun_of_mem member).path

theorem WellFormed.connected_of_subset (wf : c.WellFormed)
    (inside : ∀ id, c.state? id = some .linked → id ∈ c.order) : c.Connected :=
  fun id => ⟨inside id, wf.linked_of_mem_order⟩

/-- A path that starts in a run goes along with it. -/
theorem IsRun.prefix_of_path {rest : List NodeId} (run : c.IsRun (before ++ id :: rest))
    (path : IsPath c.next? (id :: l)) : l <+: rest := by
  induction l generalizing before id rest with
  | nil => exact List.nil_prefix
  | cons b l ih =>
    obtain ⟨next, path⟩ := Trail.isPath_cons_cons.mp path
    rw [run.next?_of_append] at next
    obtain ⟨rest, rfl⟩ := List.head?_eq_some_iff.mp next
    have longer : c.IsRun ((before ++ [id]) ++ b :: rest) := by simpa using run
    exact List.cons_prefix_cons.mpr ⟨rfl, ih longer path⟩

/-! ### Splices in the chain proper -/

/-- In the chain proper a splice replaces `mid` by `fresh`. -/
theorem Spliced.order_eq {after fresh : Option NodeId} (wf : c.WellFormed)
    (site : c.Site p mid after fresh) (spliced : Spliced c d p mid after fresh)
    (order : c.order = before ++ p :: mid ++ post) :
    d.order = before ++ p :: fresh.toList ++ post := by
  have placeIn : p ∈ c.order := by simp [order]
  have run := wf.order_isRun_of_mem placeIn
  obtain ⟨h, head⟩ := wf.exists_head (wf.linked_of_mem_order placeIn)
  have headIn := (wf.order_isRun head).2
  rw [order] at run headIn
  have wf' := spliced.wellFormed wf site
  have head' := spliced.head
  rw [head] at head'
  have run' := spliced.isRun wf site run
  by_cases out : h ∈ mid
  · have first : d.head = some p := by simpa [out] using head'
    exact wf'.order_eq_of_run run' (by simp) first
  · have first : d.head = some h := by simpa [out] using head'
    refine wf'.order_eq_of_run run' ?_ first
    simp only [List.append_assoc, List.cons_append, List.mem_append, List.mem_cons] at headIn ⊢
    tauto

theorem Spliced.becomes {after fresh : Option NodeId} (wf : c.WellFormed) (connected : c.Connected)
    (site : c.Site p mid after fresh) (spliced : Spliced c d p mid after fresh)
    (order : c.order = before ++ p :: mid ++ post) :
    c.Becomes d (before ++ p :: fresh.toList ++ post) mid := by
  have wf' := spliced.wellFormed wf site
  have order' := spliced.order_eq wf site order
  have connected' : d.Connected := by
    refine wf'.connected_of_subset fun x linked => ?_
    rw [order']
    rw [spliced.state?] at linked
    split at linked
    · simp at linked
    · rename_i outside
      split at linked
      · rename_i new
        rcases new with rfl | rfl <;> simp
      · have old := (connected x).mp linked
        rw [order] at old
        simp only [List.append_assoc, List.cons_append, List.mem_append, List.mem_cons] at old ⊢
        tauto
  refine ⟨wf', connected', order', ?_, ?_⟩
  · have texts : d.textOf = c.textOf := funext fun x => textOf_eq_of_token? (spliced.token? x)
    rw [Chain.render, textOfAll, order', texts]
  · intro x out
    rw [spliced.state?, if_pos out]

/-! ### Each edit -/

section Edits
variable (wf : c.WellFormed) (connected : c.Connected)
include wf connected

theorem WellFormed.insertAfter_becomes (order : c.order = before ++ id :: post)
    (fresh : c.state? n = some .unlinked) :
    ∃ d, insertAfter id n c = .ok () d ∧ c.Becomes d (before ++ id :: n :: post) [] := by
  have member : id ∈ c.order := by simp [order]
  have linked := wf.linked_of_mem_order member
  have different : id ≠ n := by
    rintro rfl
    simp [linked] at fresh
  obtain ⟨d, done⟩ := insertAfter_isOk.mpr ⟨⟨_, linked, by simp⟩, fresh⟩
  obtain ⟨site, spliced⟩ := wf.insertAfter_spliced different done
  exact ⟨d, done, by simpa using spliced.becomes wf connected site (by simpa using order)⟩

omit connected in
/-- Only the first node of the chain proper has nothing before it. -/
theorem WellFormed.exists_previous?_iff (member : id ∈ c.order) :
    (∃ p, c.previous? id = some p) ↔ c.order.head? ≠ some id := by
  have run := wf.order_isRun_of_mem member
  obtain ⟨before, post, order⟩ := List.append_of_mem member
  rw [order] at run ⊢
  rw [run.previous?_of_append wf]
  have nodup := wf.path_nodup run.path
  cases before with
  | nil => simp
  | cons f before =>
    simp only [List.cons_append, List.nodup_cons, List.mem_append, List.mem_cons, not_or] at nodup
    simp [nodup.1.2.1, List.getLast?_cons]

theorem WellFormed.usable_and_previous_iff :
    (c.Usable id ∧ c.state? n = some .unlinked ∧ ∃ p, c.previous? id = some p) ↔
      id ∈ c.order ∧ c.order.head? ≠ some id ∧ c.state? n = some .unlinked := by
  constructor
  · rintro ⟨-, fresh, p, previous⟩
    have member := (connected id).mp (wf.linked_of_next? ((wf.symmetric p id).mpr previous)).2
    exact ⟨member, (wf.exists_previous?_iff member).mp ⟨p, previous⟩, fresh⟩
  · rintro ⟨member, notFirst, fresh⟩
    exact ⟨⟨_, wf.linked_of_mem_order member, by simp⟩, fresh,
      (wf.exists_previous?_iff member).mpr notFirst⟩

omit connected in
/-- The node before another in the chain proper. -/
theorem WellFormed.order_split_of_next? (order : c.order = before ++ id :: post)
    (next : c.next? p = some id) : ∃ pre, before = pre ++ [p] := by
  obtain ⟨-, run⟩ := wf.run_of_order order
  have previous := (wf.symmetric p id).mp next
  rw [run.previous?_of_append wf] at previous
  exact List.getLast?_eq_some_iff.mp previous

theorem WellFormed.insertBefore_becomes (order : c.order = before ++ id :: post)
    (done : insertBefore id n c = .ok () d) : c.Becomes d (before ++ n :: id :: post) [] := by
  obtain ⟨p, next, site, spliced⟩ := wf.insertBefore_spliced done
  obtain ⟨pre, rfl⟩ := wf.order_split_of_next? order next
  have place : c.order = pre ++ p :: [] ++ id :: post := by simpa using order
  simpa using spliced.becomes wf connected site place

theorem WellFormed.replace_becomes (order : c.order = before ++ id :: post)
    (done : replace id n c = .ok () d) : c.Becomes d (before ++ n :: post) [id] := by
  obtain ⟨p, next, site, spliced⟩ := wf.replace_spliced done
  obtain ⟨pre, rfl⟩ := wf.order_split_of_next? order next
  have place : c.order = pre ++ p :: [id] ++ post := by simpa using order
  simpa using spliced.becomes wf connected site place

omit connected in
/-- A segment of the chain proper is the span between its ends. -/
theorem WellFormed.span_of_order (order : c.order = before ++ mid ++ post)
    (starts : mid.head? = some first) (ends : mid.getLast? = some last) :
    c.span first last = .ok mid := by
  have firstIn : first ∈ mid := List.mem_of_mem_head? starts
  have member : first ∈ c.order := by simp [order, firstIn]
  have run := wf.order_isRun_of_mem member
  have known : ∀ x ∈ mid, c.Known x := fun x member =>
    wf.known_of_mem_order (by simp [order, member])
  rw [order] at run
  exact wf.span_ok.mpr ⟨known first firstIn, known last (List.mem_of_getLast? ends),
    run.path.left.right, starts, ends⟩

omit connected in
/-- Spans of the chain proper go forward. -/
theorem WellFormed.exists_span_iff (member : first ∈ c.order) :
    (∃ removed, c.span first last = .ok removed) ↔
      last ∈ c.order ∧ c.order.idxOf first ≤ c.order.idxOf last := by
  have run := wf.order_isRun_of_mem member
  have nodup := wf.order_nodup
  obtain ⟨before, rest, order⟩ := List.append_of_mem member
  rw [order] at run nodup
  have notBefore : ∀ x ∈ first :: rest, x ∉ before := fun x inside outside =>
    (List.nodup_append.mp nodup).2.2 x outside x inside rfl
  have index : (before ++ first :: rest).idxOf first = before.length := by
    rw [List.idxOf_append_of_notMem (notBefore first (by simp)), List.idxOf_cons_self, Nat.add_zero]
  constructor
  · rintro ⟨removed, span⟩
    obtain ⟨-, -, path, starts, ends⟩ := wf.span_ok.mp span
    obtain ⟨l, rfl⟩ := List.head?_eq_some_iff.mp starts
    obtain ⟨post, rfl⟩ := run.prefix_of_path path
    have inside : last ∈ first :: (l ++ post) :=
      List.mem_append_left post (List.mem_of_getLast? ends)
    rw [order, index, List.idxOf_append_of_notMem (notBefore last inside)]
    exact ⟨List.mem_append_right before inside, by omega⟩
  · rintro ⟨lastIn, ordered⟩
    rw [order] at lastIn ordered
    have inside : last ∈ first :: rest := by
      rcases List.mem_append.mp lastIn with outside | inside
      · have lower := List.idxOf_lt_length_of_mem outside
        rw [index, List.idxOf_append_of_mem outside] at ordered
        omega
      · exact inside
    obtain ⟨l, post, split⟩ := List.append_of_mem inside
    have place : c.order = before ++ (l ++ [last]) ++ post := by simp [order, split]
    refine ⟨l ++ [last], wf.span_of_order place ?_ (by simp)⟩
    cases l <;> simp_all

theorem WellFormed.removeSpan_isOk_iff :
    (∃ d, removeSpan first last c = .ok () d) ↔ first ∈ c.order ∧ last ∈ c.order ∧
      c.order.head? ≠ some first ∧ c.order.idxOf first ≤ c.order.idxOf last := by
  rw [removeSpan_isOk]
  constructor
  · rintro ⟨-, -, ⟨p, previous⟩, removed, span⟩
    have member := (connected first).mp (wf.linked_of_next? ((wf.symmetric p first).mpr previous)).2
    obtain ⟨lastIn, ordered⟩ := (wf.exists_span_iff member).mp ⟨removed, span⟩
    exact ⟨member, lastIn, (wf.exists_previous?_iff member).mp ⟨p, previous⟩, ordered⟩
  · rintro ⟨firstIn, lastIn, notFirst, ordered⟩
    exact ⟨⟨_, wf.linked_of_mem_order firstIn, by simp⟩, ⟨_, wf.linked_of_mem_order lastIn, by simp⟩,
      (wf.exists_previous?_iff firstIn).mpr notFirst,
      (wf.exists_span_iff firstIn).mpr ⟨lastIn, ordered⟩⟩

theorem WellFormed.removeSpan_becomes (order : c.order = before ++ mid ++ post)
    (starts : mid.head? = some first) (ends : mid.getLast? = some last)
    (done : removeSpan first last c = .ok () d) : c.Becomes d (before ++ post) mid := by
  obtain ⟨p, removed, next, span, site, spliced⟩ := wf.removeSpan_spliced done
  obtain rfl : mid = removed := by
    rw [wf.span_of_order order starts ends] at span
    exact Except.ok.inj span
  obtain ⟨tail, rfl⟩ := List.head?_eq_some_iff.mp starts
  have split : c.order = before ++ first :: (tail ++ post) := by simpa using order
  obtain ⟨pre, rfl⟩ := wf.order_split_of_next? split next
  have place : c.order = pre ++ p :: (first :: tail) ++ post := by simpa using order
  simpa using spliced.becomes wf connected site place

end Edits

/-! ### Chains of tokens -/

theorem Threaded.connected {capacity : Nat} {done : List Token} {final : Option NodeId}
    (threaded : Threaded capacity c final done) (fits : done.length ≤ 2 ^ 32) : c.Connected := by
  refine threaded.wellFormed.connected_of_subset fun id linked => ?_
  rw [threaded.order, NodeId.mem_firsts fits, ← threaded.size]
  exact known_iff_lt.mp (known_of_state? linked)

theorem WellFormed.order_push (wf : c.WellFormed) (token : Token) : (c.push token).order = c.order := by
  cases head : c.head with
  | none => rw [order_of_headless head, order_of_headless (by simpa using head)]
  | some h =>
    obtain ⟨run, member⟩ := wf.order_isRun head
    exact (wf.push token).order_eq_of_run (run.push token) member (by simpa using head)

theorem Connected.push (connected : c.Connected) (wf : c.WellFormed) (token : Token) :
    (c.push token).Connected := by
  refine (wf.push token).connected_of_subset fun id linked => ?_
  rw [state?_push] at linked
  rw [wf.order_push]
  split at linked
  · simp at linked
  · exact (connected id).mp linked

/-! ### All of them -/

/-- On a chain whose linked nodes are all in the chain proper, every edit at a place is the list
operation of its name. -/
theorem edits_refine_lists (wf : c.WellFormed) (connected : c.Connected) :
    (∀ id n before post, c.order = before ++ id :: post → c.state? n = some .unlinked →
      ∃ d, insertAfter id n c = .ok () d ∧ c.Becomes d (before ++ id :: n :: post) []) ∧
    (∀ id n, ((∃ d, insertBefore id n c = .ok () d) ↔
        id ∈ c.order ∧ c.order.head? ≠ some id ∧ c.state? n = some .unlinked) ∧
      ∀ before post d, c.order = before ++ id :: post → insertBefore id n c = .ok () d →
        c.Becomes d (before ++ n :: id :: post) []) ∧
    (∀ id n, ((∃ d, replace id n c = .ok () d) ↔
        id ∈ c.order ∧ c.order.head? ≠ some id ∧ c.state? n = some .unlinked) ∧
      ∀ before post d, c.order = before ++ id :: post → replace id n c = .ok () d →
        c.Becomes d (before ++ n :: post) [id]) ∧
    ∀ first last, ((∃ d, removeSpan first last c = .ok () d) ↔
        first ∈ c.order ∧ last ∈ c.order ∧ c.order.head? ≠ some first ∧
          c.order.idxOf first ≤ c.order.idxOf last) ∧
      ∀ before mid post d, c.order = before ++ mid ++ post → mid.head? = some first →
        mid.getLast? = some last → removeSpan first last c = .ok () d →
          c.Becomes d (before ++ post) mid := by
  refine ⟨?_, ?_, ?_, ?_⟩
  · intro id n before post order fresh
    exact wf.insertAfter_becomes connected order fresh
  · intro id n
    refine ⟨insertBefore_isOk.trans (wf.usable_and_previous_iff connected), ?_⟩
    intro before post d order done
    exact wf.insertBefore_becomes connected order done
  · intro id n
    refine ⟨replace_isOk.trans (wf.usable_and_previous_iff connected), ?_⟩
    intro before post d order done
    exact wf.replace_becomes connected order done
  · intro first last
    refine ⟨wf.removeSpan_isOk_iff connected, ?_⟩
    intro before mid post d order starts ends done
    exact wf.removeSpan_becomes connected order starts ends done

/-- A node put in the place of the last of three, and the last two of three taken out. -/
theorem edits_refine_lists_three :
    ∃ c : Chain, c.WellFormed ∧ c.Connected ∧ c.order = [.ofIndex 0, .ofIndex 1, .ofIndex 2] ∧
      (∃ d, replace (.ofIndex 2) (.ofIndex 3) c = .ok () d ∧
        c.Becomes d [.ofIndex 0, .ofIndex 1, .ofIndex 3] [.ofIndex 2]) ∧
      ∃ d, removeSpan (.ofIndex 1) (.ofIndex 2) c = .ok () d ∧
        c.Becomes d [.ofIndex 0] [.ofIndex 1, .ofIndex 2] := by
  have room : [Token.classify .identifier ['a'], .classify .identifier ['b'],
      .classify .identifier ['c']].length ≤ 4 := by decide
  obtain ⟨c, ok⟩ := ofTokens_isOk room
  obtain ⟨final, threaded⟩ := ofTokens_threaded (by decide) ok
  have connected := (threaded.connected (by decide)).push threaded.wellFormed (.classify .comment [])
  have order := threaded.wellFormed.order_push (.classify .comment [])
  rw [threaded.order] at order
  have wf := threaded.wellFormed.push (.classify .comment [])
  have fresh : (c.push (.classify .comment [])).state? (.ofIndex 3) = some .unlinked := by
    rw [state?_push, threaded.size]
    rfl
  obtain ⟨-, -, replaces, removes⟩ := edits_refine_lists wf connected
  obtain ⟨d, done⟩ := (replaces (.ofIndex 2) (.ofIndex 3)).1.mpr ⟨by rw [order]; decide,
    by rw [order]; decide, fresh⟩
  obtain ⟨e, done'⟩ := (removes (.ofIndex 1) (.ofIndex 2)).1.mpr ⟨by rw [order]; decide,
    by rw [order]; decide, by rw [order]; decide, by rw [order]; decide⟩
  exact ⟨_, wf, connected, order,
    ⟨d, done, (replaces _ _).2 [.ofIndex 0, .ofIndex 1] [] d order done⟩,
    ⟨e, done', (removes _ _).2 [.ofIndex 0] [.ofIndex 1, .ofIndex 2] [] e order rfl rfl done'⟩⟩

end Restyle.Chain
