import Mathlib.Algebra.Group.Nat.Defs
import Mathlib.Tactic.Set
import Restyle.Proofs.Chain.Edits

/-!
# Chains of tokens

The chain of a list of tokens has one linked node for each, in their order (`ofTokens_threaded`), and
there is one as long as the table can hold them (`ofTokens_isOk`).
-/

namespace Restyle

def NodeId.firsts (n : Nat) : List NodeId := (List.range n).map NodeId.ofIndex

theorem NodeId.index_ofIndex {i : Nat} (bound : i < 2 ^ 32) : (NodeId.ofIndex i).index = i := by
  simp only [NodeId.ofIndex, NodeId.index, Nat.toUInt32]
  exact UInt32.toNat_ofNat_of_lt' bound

theorem NodeId.firsts_succ (n : Nat) : firsts (n + 1) = firsts n ++ [ofIndex n] := by
  simp [firsts, List.range_succ]

theorem NodeId.map_index_firsts {n : Nat} (fits : n ≤ 2 ^ 32) :
    (firsts n).map index = List.range n := by
  rw [firsts, List.map_map]
  conv_rhs => rw [← List.map_id (List.range n)]
  refine List.map_congr_left fun i member => ?_
  have bound := List.mem_range.mp member
  exact index_ofIndex (by omega)

theorem NodeId.mem_firsts {n : Nat} {id : NodeId} (fits : n ≤ 2 ^ 32) :
    id ∈ firsts n ↔ id.index < n := by
  simp only [firsts, List.mem_map, List.mem_range]
  constructor
  · rintro ⟨i, bound, rfl⟩
    rwa [index_ofIndex (by omega)]
  · intro bound
    exact ⟨id.index, bound, index_inj.mp (index_ofIndex (by omega))⟩

namespace Chain
variable {c d : Chain} {token : Token}

/-! ### A new node keeps the rest as it is -/

theorem create_ok {id : NodeId} :
    create token c = .ok id d ↔
      c.size < c.capacity ∧ id = .ofIndex c.size ∧ d = c.push token := by
  unfold create
  by_cases room : c.size < c.capacity <;> simp [room, push, eq_comm]

theorem create_error {e : ChainError} (failed : create token c = .error e d) : d = c := by
  unfold create at failed
  split at failed
  · simp at failed
  · simp_all

theorem WellFormed.push (wf : c.WellFormed) (token : Token) : (c.push token).WellFormed := by
  constructor
  case inRange =>
    intro a b link
    have known := wf.inRange a b (by simpa using link)
    rw [known_iff_lt] at known ⊢
    rw [size_push]
    omega
  case symmetric =>
    simpa using wf.symmetric
  case ends =>
    obtain ⟨rank, ranked⟩ := wf.exists_rank
    exact ends_of_ranked fun x y next => ranked x y (by simpa using next)
  case idle =>
    intro x s state idle
    rw [state?_push] at state
    rw [next?_push, previous?_push]
    split at state
    · rename_i new
      simp [next?, previous?, get?_of_index_eq_size new]
    · exact wf.idle x s state idle
  case head_linked =>
    intro x head
    have linked := wf.head_linked x head
    have known := known_iff_lt.mp (known_of_state? linked)
    rw [state?_push, if_neg (by omega), linked]
  case headless =>
    intro head x
    rw [state?_push]
    split
    · simp
    · exact wf.headless head x

theorem IsRun.push {l : List NodeId} (run : c.IsRun l) (token : Token) : (c.push token).IsRun l :=
  ⟨run.path.congr fun _ _ => next?_push, by simpa using run.first, by simpa using run.last⟩

/-! ### Threading -/

/-- The chain that the tokens `done` have been threaded into, the last of them at `last`. -/
structure Threaded (capacity : Nat) (c : Chain) (last : Option NodeId) (done : List Token) : Prop where
  wellFormed : c.WellFormed
  capacity : c.capacity = capacity
  size : c.size = done.length
  edits : c.edits = 0
  run : c.IsRun (NodeId.firsts done.length)
  head : c.head = (NodeId.firsts done.length).head?
  last : last = (NodeId.firsts done.length).getLast?
  token? : ∀ id : NodeId, c.token? id = done[id.index]?

/-- Without any links there is only the head to look at. -/
theorem wellFormed_of_no_links (next : ∀ id, c.next? id = none) (previous : ∀ id, c.previous? id = none)
    (head_linked : ∀ id, c.head = some id → c.state? id = some .linked)
    (headless : c.head = none → ∀ id, c.state? id ≠ some .linked) : c.WellFormed where
  inRange := by simp [next, previous]
  symmetric := by simp [next, previous]
  ends id := ⟨1, by simp [nextAfter, next]⟩
  idle := by simp [next, previous]
  head_linked := head_linked
  headless := headless

theorem threaded_nil (capacity : Nat) : Threaded capacity { capacity } none [] := by
  have empty : ∀ id, ({ capacity } : Chain).get? id = none := by simp [get?]
  have next : ∀ id, ({ capacity } : Chain).next? id = none := by simp [next?, empty]
  have previous : ∀ id, ({ capacity } : Chain).previous? id = none := by simp [previous?, empty]
  have state : ∀ id, ({ capacity } : Chain).state? id = none := by simp [Chain.state?, empty]
  exact {
    wellFormed := wellFormed_of_no_links next previous (by simp) (by simp [state])
    capacity := rfl
    size := rfl
    edits := rfl
    run := ⟨by simp [NodeId.firsts], by simp [NodeId.firsts], by simp [NodeId.firsts]⟩
    head := rfl
    last := rfl
    token? := by simp [token?, empty] }

/-- The first node of a chain is linked to nothing. -/
theorem Threaded.start {capacity : Nat} {id : NodeId} (threaded : Threaded capacity c none [])
    (index : id.index = c.size) :
    Threaded capacity (((c.push token).update id fun n => { n with state := .linked }).withHead
      (some id)) (some id) [token] := by
  have size : c.size = 0 := threaded.size
  have empty : ∀ x, c.get? x = none := by
    intro x
    rw [← not_known_iff, known_iff_lt]
    omega
  have known : (c.push token).Known id := by
    rw [known_iff_lt, size_push, index]
    omega
  have zero : NodeId.firsts [token].length = [id] := by
    have same : NodeId.ofIndex 0 = id := by
      rw [← NodeId.index_inj, index, size, NodeId.index_ofIndex (by decide)]
    simp [NodeId.firsts, same]
  set d := ((c.push token).update id fun n => { n with state := .linked }).withHead (some id)
  have next : ∀ x, d.next? x = none := by
    intro x
    simp only [d, next?_withHead]
    rw [next?_update_of_eq (by exact fun _ => rfl), next?_push, next?, empty, Option.bind_none]
  have previous : ∀ x, d.previous? x = none := by
    intro x
    simp only [d, previous?_withHead]
    rw [previous?_update_of_eq (by exact fun _ => rfl), previous?_push, previous?, empty,
      Option.bind_none]
  have linked : d.state? id = some .linked := by
    simp only [d, state?_withHead]
    rw [state?_update_const (s := .linked) (by exact fun _ => rfl) known, if_pos rfl]
  refine
    { wellFormed := wellFormed_of_no_links next previous ?_ (by simp [d])
      capacity := threaded.capacity
      size := by simp [d, size]
      edits := threaded.edits
      run := ?_
      head := by rw [zero]; rfl
      last := by rw [zero]; rfl
      token? := fun x => ?_ }
  · rintro x ⟨rfl⟩
    exact linked
  · rw [zero]
    exact ⟨by simp, by simp [previous], by simp [next]⟩
  · simp only [d, token?_withHead]
    rw [token?_update (by exact fun _ => rfl), token?_push, size]
    by_cases first : x.index = 0
    · simp [first]
    · simp only [first, if_false, Chain.token?, empty, Option.map_none]
      exact (List.getElem?_eq_none (by simp only [List.length_singleton]; omega)).symm

/-- Every other node is linked after the one before it. -/
theorem Threaded.extend {capacity : Nat} {last id : NodeId} {done : List Token}
    (threaded : Threaded capacity c (some last) done) (fits : done.length < 2 ^ 32)
    (index : id.index = c.size) :
    Threaded capacity ((c.push token).link last id) (some id) (done ++ [token]) := by
  obtain ⟨before, ends⟩ : ∃ before, NodeId.firsts done.length = before ++ [last] := by
    obtain ⟨before, h⟩ := List.getLast?_eq_some_iff.mp threaded.last.symm
    exact ⟨before, h⟩
  have run := threaded.run
  rw [ends] at run
  have known : c.Known last := by
    rw [known_iff_lt, threaded.size, ← NodeId.mem_firsts (by omega), ends]
    simp
  have wf := threaded.wellFormed.push token
  have next : (c.push token).next? last = none := by
    rw [next?_push]
    exact run.last last (by simp)
  have knownNow : (c.push token).Known last := by
    rw [known_iff_lt] at known ⊢
    rw [size_push]
    omega
  have fresh : (c.push token).state? id = some .unlinked := by rw [state?_push, if_pos index]
  have different : last ≠ id := by
    intro same
    have bound := known_iff_lt.mp known
    rw [same, index] at bound
    omega
  have head : (c.push token).head.or (some last) = ((c.push token).link last id).head := by
    rw [head_link, head_push, threaded.head, ends]
    cases before <;> simp
  have spliced := wf.spliced_insert fresh knownNow different
  rw [next, linkTo, head, withHead_head] at spliced
  have site : (c.push token).Site last [] none (some id) := by
    have site := site_insert fresh knownNow different
    rwa [next] at site
  have longer : NodeId.firsts (done ++ [token]).length = before ++ [last, id] := by
    have same : NodeId.ofIndex done.length = id := by
      rw [← NodeId.index_inj, index, threaded.size, NodeId.index_ofIndex fits]
    rw [List.length_append, List.length_singleton, NodeId.firsts_succ, ends, same]
    simp
  refine
    { wellFormed := spliced.wellFormed wf site
      capacity := by simp [threaded.capacity]
      size := by simp [threaded.size]
      edits := by rw [edits_link, edits_push, threaded.edits]
      run := ?_
      head := ?_
      last := by rw [longer]; simp
      token? := fun x => ?_ }
  · have kept : (c.push token).IsRun (before ++ last :: [] ++ []) := by
      simpa using run.push token
    rw [longer]
    simpa using spliced.isRun wf site kept
  · rw [head_link, head_push, threaded.head, longer, ends]
    cases before <;> simp
  · rw [token?_link, token?_push, threaded.token?, threaded.size, List.getElem?_append]
    by_cases same : x.index = done.length
    · simp [same]
    · by_cases inside : x.index < done.length
      · simp [same, inside]
      · rw [if_neg same, if_neg inside, List.getElem?_eq_none (by omega),
          List.getElem?_eq_none (by simp only [List.length_singleton]; omega)]

theorem Threaded.append {capacity : Nat} {last : Option NodeId} {done : List Token} {id : NodeId}
    (threaded : Threaded capacity c last done) (fits : capacity ≤ 2 ^ 32)
    (ok : c.append last token = .ok (id, d)) : Threaded capacity d (some id) (done ++ [token]) := by
  unfold Chain.append at ok
  split at ok
  · simp at ok
  · rename_i new c' created
    obtain ⟨room, rfl, rfl⟩ := create_ok.mp created
    have bound : c.size < 2 ^ 32 := by
      rw [threaded.capacity] at room
      omega
    have index := NodeId.index_ofIndex bound
    cases last with
    | some last =>
      obtain ⟨rfl, rfl⟩ := Prod.mk.inj (Except.ok.inj ok)
      exact threaded.extend (by rwa [← threaded.size]) index
    | none =>
      obtain ⟨rfl, rfl⟩ := Prod.mk.inj (Except.ok.inj ok)
      obtain rfl : done = [] := by
        have none := threaded.last.symm
        simpa [NodeId.firsts] using none
      exact threaded.start index

theorem Threaded.appendAll {capacity : Nat} {last : Option NodeId} {done rest : List Token}
    (threaded : Threaded capacity c last done) (fits : capacity ≤ 2 ^ 32)
    (ok : c.appendAll last rest = .ok d) : ∃ last, Threaded capacity d last (done ++ rest) := by
  induction rest generalizing c last done with
  | nil =>
    obtain rfl : c = d := by simpa [Chain.appendAll] using ok
    exact ⟨last, by simpa using threaded⟩
  | cons token rest ih =>
    rw [Chain.appendAll] at ok
    split at ok
    · simp at ok
    · rename_i id c' appended
      obtain ⟨last, threaded⟩ := ih (threaded.append fits appended) ok
      exact ⟨last, by simpa using threaded⟩

theorem append_isOk (last : Option NodeId) (token : Token) (room : c.size < c.capacity) :
    ∃ id d, c.append last token = .ok (id, d) ∧ d.size = c.size + 1 ∧ d.capacity = c.capacity := by
  have created : create token c = .ok (.ofIndex c.size) (c.push token) :=
    create_ok.mpr ⟨room, rfl, rfl⟩
  unfold Chain.append
  rw [created]
  cases last with
  | some last => exact ⟨_, _, rfl, by simp, by simp⟩
  | none =>
    refine ⟨_, _, rfl, ?_, rfl⟩
    show (((c.push token).update _ _).withHead _).size = _
    simp

theorem appendAll_isOk {last : Option NodeId} {rest : List Token}
    (room : c.size + rest.length ≤ c.capacity) : ∃ d, c.appendAll last rest = .ok d := by
  induction rest generalizing c last with
  | nil => exact ⟨c, rfl⟩
  | cons token rest ih =>
    simp only [List.length_cons] at room
    obtain ⟨id, d, appended, size, capacity⟩ :=
      append_isOk (c := c) last token (by omega)
    rw [Chain.appendAll, appended]
    exact ih (by omega)

/-- The table can hold as many tokens as its capacity says. -/
theorem ofTokens_isOk {capacity : Nat} {tokens : List Token} (room : tokens.length ≤ capacity) :
    ∃ c, ofTokens capacity tokens = .ok c := appendAll_isOk (by simpa [size] using room)

theorem ofTokens_threaded {capacity : Nat} {tokens : List Token} (fits : capacity ≤ 2 ^ 32)
    (ok : ofTokens capacity tokens = .ok c) : ∃ last, Threaded capacity c last tokens :=
  (threaded_nil capacity).appendAll fits ok

/-! ### Order and text -/

section Threaded
variable {capacity : Nat} {last : Option NodeId} {done : List Token}
  (threaded : Threaded capacity c last done)
include threaded

theorem Threaded.order : c.order = NodeId.firsts done.length := by
  cases head : c.head with
  | none =>
    rw [order_of_headless head]
    have none := threaded.head.symm.trans head
    rw [List.head?_eq_none_iff] at none
    exact none.symm
  | some first =>
    refine threaded.wellFormed.order_eq_of_run threaded.run ?_ head
    exact List.mem_of_mem_head? (threaded.head.symm.trans head)

/-- The chain of tokens renders their texts one after another. -/
theorem Threaded.render (fits : done.length ≤ 2 ^ 32) : c.render = done.flatMap (·.text) := by
  have texts : (List.range done.length).map (fun i => c.textOf (.ofIndex i)) = done.map (·.text) := by
    apply List.ext_getElem
    · simp
    · intro i left right
      simp only [List.length_map, List.length_range] at left
      have token := threaded.token? (.ofIndex i)
      rw [NodeId.index_ofIndex (by omega), List.getElem?_eq_getElem left] at token
      obtain ⟨node, found, same⟩ := Option.map_eq_some_iff.mp token
      simp [textOf, found, same]
  rw [Chain.render, textOfAll, threaded.order, NodeId.firsts, List.flatMap_map, List.flatMap_def,
    texts, List.flatMap_def]

/-- Neighbors stand side by side in the table. -/
theorem Threaded.index_of_next? {a b : NodeId} (fits : done.length ≤ 2 ^ 32)
    (next : c.next? a = some b) : b.index = a.index + 1 := by
  have inside : a ∈ NodeId.firsts done.length := by
    rw [NodeId.mem_firsts fits, ← threaded.size]
    exact known_iff_lt.mp (known_of_next? next)
  obtain ⟨before, after, split⟩ := List.append_of_mem inside
  have run := threaded.run
  rw [split] at run
  rw [run.next?_of_append] at next
  obtain ⟨rest, rfl⟩ := List.head?_eq_some_iff.mp next
  have indices := NodeId.map_index_firsts fits
  rw [split, List.map_append, List.map_cons, List.map_cons] at indices
  have place : ∀ i x : Nat, (List.range done.length)[i]? = some x → x = i := by
    intro i x found
    obtain ⟨lt, same⟩ := List.getElem?_eq_some_iff.mp found
    rw [← same, List.getElem_range]
  have first := place before.length a.index (by rw [← indices]; simp)
  have second := place (before.length + 1) b.index (by rw [← indices]; simp)
  omega

end Threaded

end Chain

end Restyle
