import Restyle.Chain.Command
import Restyle.Proofs.Chain.Splice
import Restyle.Proofs.Outcome

/-!
# What the edits check and do

For each edit: when it succeeds, and that its success is a splice (`insertAfter`, `insertBefore`,
`replace`, `removeSpan`) or a cut and a join (`join`). A failed edit changes nothing.
-/

namespace Restyle.Chain
open Trail (IsPath)
open Outcome
variable {c d : Chain} {a b id n p first last : NodeId}

/-! ### Checks -/

theorem node_ok {node : Node} : c.node id = .ok node ↔ c.get? id = some node := by
  unfold Chain.node
  split <;> simp_all

theorem token_ok {t : Token} : c.token id = .ok t ↔ c.token? id = some t := by
  simp [Chain.token, map_ok, node_ok, token?]

def Usable (c : Chain) (id : NodeId) : Prop := ∃ s, c.state? id = some s ∧ s ≠ .orphaned

theorem Usable.known (usable : c.Usable id) : c.Known id := by
  obtain ⟨s, state, -⟩ := usable
  exact known_of_state? state

theorem checkUsable_ok : c.checkUsable id = .ok () ↔ c.Usable id := by
  simp only [checkUsable, bind_ok, last_check_ok, pure_ok, and_true, node_ok, Usable, Chain.state?,
    Option.map_eq_some_iff]
  constructor
  · rintro ⟨node, found, usable⟩
    exact ⟨node.state, ⟨node, found, rfl⟩, usable⟩
  · rintro ⟨_, ⟨node, found, rfl⟩, usable⟩
    exact ⟨node, found, usable⟩

theorem checkFresh_ok : c.checkFresh id = .ok () ↔ c.state? id = some .unlinked := by
  simp only [checkFresh, bind_ok, node_ok, Chain.state?, Option.map_eq_some_iff]
  refine exists_congr fun node => and_congr_right fun found => ?_
  cases node.state <;> simp [throw_ok, pure_ok]

theorem neighborBefore_ok (operation : String) :
    c.neighborBefore id operation = .ok p ↔ c.previous? id = some p := by
  unfold neighborBefore
  split <;> simp_all

theorem checkBefore_ok {operation : String} :
    checkBefore operation id n c = .ok p ↔
      c.Usable id ∧ c.state? n = some .unlinked ∧ c.previous? id = some p := by
  simp only [checkBefore, bind_ok, ← checkUsable_ok, ← checkFresh_ok,
    ← neighborBefore_ok operation]
  constructor
  · rintro ⟨⟨⟩, usable, ⟨⟩, fresh, before⟩
    exact ⟨usable, fresh, before⟩
  · rintro ⟨usable, fresh, before⟩
    exact ⟨(), usable, (), fresh, before⟩

theorem checkAfter_ok :
    checkAfter id n c = .ok () ↔ c.Usable id ∧ c.state? n = some .unlinked := by
  simp only [checkAfter, bind_ok, ← checkUsable_ok, ← checkFresh_ok]
  constructor
  · rintro ⟨⟨⟩, usable, fresh⟩
    exact ⟨usable, fresh⟩
  · rintro ⟨usable, fresh⟩
    exact ⟨(), usable, fresh⟩

theorem checkRemove_ok {removed : List NodeId} :
    checkRemove first last c = .ok (p, removed) ↔
      c.Usable first ∧ c.Usable last ∧ c.previous? first = some p ∧ c.span first last = .ok removed := by
  simp only [checkRemove, bind_ok, ← checkUsable_ok, ← neighborBefore_ok "remove"]
  constructor
  · rintro ⟨⟨⟩, left, ⟨⟩, right, q, before, ids, span, same⟩
    obtain ⟨rfl, rfl⟩ := Prod.mk.inj (Except.ok.inj same)
    exact ⟨left, right, before, span⟩
  · rintro ⟨left, right, before, span⟩
    exact ⟨(), left, (), right, p, before, removed, span, rfl⟩

/-- In a well-formed chain a span is the path between its ends. -/
theorem WellFormed.span_ok (wf : c.WellFormed) {ids : List NodeId} :
    c.span first last = .ok ids ↔ c.Known first ∧ c.Known last ∧ IsPath c.next? ids ∧
      ids.head? = some first ∧ ids.getLast? = some last := by
  simp only [span, bind_ok, node_ok]
  constructor
  · rintro ⟨_, foundFirst, _, foundLast, found⟩
    split at found
    · rename_i arrived
      obtain ⟨l, walk, list⟩ := Trail.walk_isWalk c.next? (· == last) c.size first
      have same : first :: l = ids := list.symm.trans (Except.ok.inj found)
      refine ⟨⟨_, foundFirst⟩, ⟨_, foundLast⟩, same ▸ walk.path, by simp [← same], ?_⟩
      rw [← same, ← list, Trail.getLast_toList, arrived]
    · exact (throw_ok.mp found).elim
  · rintro ⟨⟨f, foundFirst⟩, ⟨t, foundLast⟩, path, head, final⟩
    cases ids with
    | nil => simp at head
    | cons f' l =>
      obtain rfl : f' = first := by simpa using head
      rw [List.getLast?_eq_some_getLast (by simp), Option.some.injEq] at final
      have bound := wf.path_length_le path List.mem_cons_self ⟨f, foundFirst⟩
      have nodup := wf.path_nodup path
      have walk : Trail.IsWalk c.next? (· == last) c.size f' l := by
        refine ⟨path, ?_, by simp only [List.length_cons] at bound; omega, .inr (.inl ?_)⟩
        · intro x member
          rw [← List.dropLast_append_getLast (l := f' :: l) (by simp), List.nodup_append] at nodup
          simpa [← final] using nodup.2.2 x member _ (by simp)
        · simp [final]
      refine ⟨f, foundFirst, t, foundLast, ?_⟩
      rw [if_pos ((Trail.last_eq_of_isWalk walk).trans final), Trail.toList_eq_of_isWalk walk]
      rfl

/-! ### Success and failure -/

theorem commit_ok {α : Type} {check : Chain → Except ChainError α} {change : α → Chain → Chain}
    {u : Unit} :
    commit check change c = .ok u d ↔ ∃ x, check c = .ok x ∧ d = (change x c).countEdit := by
  unfold commit
  split
  · rename_i failed
    simp [failed]
  · rename_i x passed
    simp [passed, eq_comm]

theorem commit_error {α : Type} {check : Chain → Except ChainError α} {change : α → Chain → Chain}
    {e : ChainError} (failed : commit check change c = .error e d) : d = c := by
  unfold commit at failed
  split at failed
  · simp_all
  · simp at failed

theorem WellFormed.countEdit (wf : c.WellFormed) : c.countEdit.WellFormed :=
  ⟨wf.inRange, wf.symmetric, fun id => by
    obtain ⟨rank, ranked⟩ := wf.exists_rank
    exact ends_of_ranked (c := c.countEdit) ranked id, wf.idle, wf.head_linked, wf.headless⟩

/-- Counting an edit changes no node. -/
theorem Spliced.countEdit {mid : List NodeId} {after fresh : Option NodeId}
    (spliced : Spliced c d p mid after fresh) : Spliced c d.countEdit p mid after fresh :=
  ⟨spliced.next?, spliced.previous?, spliced.state?, spliced.token?, spliced.size, spliced.head⟩

/-! ### A link to what may be missing -/

section LinkTo
variable {q : Option NodeId} {x : NodeId}

@[simp] theorem size_linkTo : (c.linkTo a q).size = c.size := by cases q <;> simp [linkTo]

@[simp] theorem head_linkTo : (c.linkTo a q).head = c.head := by cases q <;> simp [linkTo]

@[simp] theorem token?_linkTo : (c.linkTo a q).token? x = c.token? x := by cases q <;> simp [linkTo]

theorem next?_linkTo (ha : c.Known a) (stuck : c.next? a = none)
    (partner : ∀ b y, q = some b → c.previous? b = some y → c.Known y)
    (free : ∀ b, q = some b → c.previous? b ≠ some x) :
    (c.linkTo a q).next? x = if x = a then q else c.next? x := by
  cases q with
  | none =>
    rw [linkTo]
    split <;> simp_all
  | some b => rw [linkTo, next?_link ha (partner b · rfl), if_neg (free b rfl)]

theorem previous?_linkTo (stuck : c.next? a = none) (hq : ∀ b, q = some b → c.Known b) :
    (c.linkTo a q).previous? x = if q = some x then some a else c.previous? x := by
  cases q with
  | none => simp [linkTo]
  | some b => simp [linkTo, previous?_link (hq b rfl), stuck, eq_comm (a := b)]

theorem state?_linkTo (ha : c.state? a = some .linked)
    (hq : ∀ b, q = some b → c.state? b = some .linked) : (c.linkTo a q).state? x = c.state? x := by
  cases q with
  | none => rfl
  | some b =>
    have hb := hq b rfl
    rw [linkTo, state?_link (known_of_state? ha) (known_of_state? hb)]
    split
    · rename_i same
      rcases same with rfl | rfl
      · exact ha.symm
      · exact hb.symm
    · rfl

end LinkTo

theorem WellFormed.linked_of_next? (wf : c.WellFormed) (next : c.next? a = some b) :
    c.state? a = some .linked ∧ c.state? b = some .linked := by
  have previous := (wf.symmetric a b).mp next
  obtain ⟨s, state⟩ := (known_of_next? next).state?
  obtain ⟨t, other⟩ := (known_of_previous? previous).state?
  refine ⟨?_, ?_⟩
  · by_cases h : s = .linked
    · rw [state, h]
    · simp [(wf.idle a s state h).1] at next
  · by_cases h : t = .linked
    · rw [other, h]
    · simp [(wf.idle b t other h).2] at previous

/-! ### Putting a node in -/

section Fresh
variable (wf : c.WellFormed) (fresh : c.state? n = some .unlinked)
include wf fresh

theorem WellFormed.next?_link_fresh (known : c.Known p) (x : NodeId) :
    (c.link p n).next? x = if x = p then some n else c.next? x := by
  have back := (wf.idle n _ fresh (by simp)).2
  rw [next?_link known (by simp [back])]
  simp [back]

theorem WellFormed.previous?_link_fresh (x : NodeId) : (c.link p n).previous? x =
    if x = n then some p else if c.next? p = some x then none else c.previous? x :=
  previous?_link (known_of_state? fresh) fun y h => wf.inRange p y (.inl h)

/-- No link of the chain leads to a fresh node. -/
theorem WellFormed.next?_ne_fresh (x : NodeId) : c.next? x ≠ some n := by
  intro next
  have back := (wf.idle n _ fresh (by simp)).2
  simp [(wf.symmetric x n).mp next] at back

theorem WellFormed.next?_fresh_link (known : c.Known p) (different : p ≠ n) :
    (c.link p n).next? n = none := by
  rw [wf.next?_link_fresh fresh known, if_neg different.symm, (wf.idle n _ fresh (by simp)).1]

/-- What was linked after some node still is when a fresh node is linked in. -/
theorem WellFormed.state?_link_fresh (known : c.Known p) (next : c.next? a = some b) :
    (c.link p n).state? b = some .linked := by
  rw [state?_link known (known_of_state? fresh)]
  split
  · rfl
  · exact (wf.linked_of_next? next).2

omit wf in
theorem site_insert (known : c.Known p) (different : p ≠ n) :
    c.Site p [] (c.next? p) (some n) where
  path := by simp
  next := rfl
  known := known
  fresh := by
    rintro _ ⟨rfl⟩
    exact ⟨fresh, different.symm⟩

/-- A fresh node linked in after `p`. -/
theorem WellFormed.spliced_insert (known : c.Known p) (different : p ≠ n) :
    Spliced c (((c.link p n).linkTo n (c.next? p)).withHead (c.head.or (some p))) p [] (c.next? p)
      (some n) := by
  have knownFresh := known_of_state? fresh
  have next₁ := wf.next?_link_fresh fresh known
  have previous₁ := wf.previous?_link_fresh fresh (p := p)
  have state₁ := fun x => state?_link (x := x) known knownFresh
  have stuck := wf.next?_fresh_link fresh known different
  have free : ∀ q, c.next? p = some q → (c.link p n).previous? q = none := by
    intro q next
    have other : q ≠ n := by
      rintro rfl
      exact wf.next?_ne_fresh fresh p next
    rw [previous₁, if_neg other, if_pos next]
  constructor
  case next? =>
    intro x
    rw [next?_withHead, next?_linkTo (by simpa using knownFresh) stuck, next₁]
    · by_cases h : x = p
      · subst h
        simp [different]
      · by_cases h' : x = n
        · simp [h', different.symm]
        · simp [h, h', Ne.symm h']
    · intro q y next previous
      simp [free q next] at previous
    · intro q next
      simp [free q next]
  case previous? =>
    intro x
    rw [previous?_withHead,
      previous?_linkTo stuck fun q next => known_link.mpr (wf.inRange p q (.inl next)), previous₁]
    by_cases h : c.next? p = some x
    · simp [h]
    · by_cases h' : x = n
      · simp [h']
      · simp [h, h', Ne.symm h']
  case state? =>
    intro x
    rw [state?_withHead, state?_linkTo (by simp [state₁]) fun q => wf.state?_link_fresh fresh known,
      state₁]
    simp [eq_comm (a := n)]
  case token? =>
    intro x
    simp
  case size =>
    simp
  case head =>
    cases c.head <;> simp

end Fresh

/-! ### Taking nodes out -/

theorem WellFormed.ne_of_next? (wf : c.WellFormed) (next : c.next? a = some b) : a ≠ b := by
  obtain ⟨rank, ranked⟩ := wf.exists_rank
  rintro rfl
  exact Nat.lt_irrefl _ (ranked a a next)

/-- A chain with a linked node has a head. -/
theorem WellFormed.exists_head (wf : c.WellFormed) (linked : c.state? id = some .linked) :
    ∃ h, c.head = some h := by
  cases head : c.head with
  | none => exact (wf.headless head id linked).elim
  | some h => exact ⟨h, rfl⟩

theorem WellFormed.site_replace (wf : c.WellFormed) (fresh : c.state? n = some .unlinked)
    (previous : c.previous? id = some p) : c.Site p [id] (c.next? id) (some n) where
  path := by simpa using (wf.symmetric p id).mpr previous
  next := by simp
  known := wf.inRange id p (.inr previous)
  fresh := by
    rintro _ ⟨rfl⟩
    refine ⟨fresh, ?_⟩
    rintro rfl
    simp [(wf.linked_of_next? ((wf.symmetric _ id).mpr previous)).1] at fresh

/-- A fresh node linked in where `id` was. -/
theorem WellFormed.spliced_replace (wf : c.WellFormed) (fresh : c.state? n = some .unlinked)
    (previous : c.previous? id = some p) :
    Spliced c (((c.link p n).linkTo n (c.next? id)).orphan p id) p [id] (c.next? id) (some n) := by
  have site := wf.site_replace fresh previous
  have link := (wf.symmetric p id).mpr previous
  have different : p ≠ n := (site.fresh n rfl).2.symm
  have knownFresh := known_of_state? fresh
  have next₁ := wf.next?_link_fresh fresh site.known
  have previous₁ := wf.previous?_link_fresh fresh (p := p)
  have state₁ := fun x => state?_link (x := x) site.known knownFresh
  have stuck := wf.next?_fresh_link fresh site.known different
  have back : ∀ q, c.next? id = some q → (c.link p n).previous? q = some id := by
    intro q next
    have notFresh : q ≠ n := by
      rintro rfl
      exact wf.next?_ne_fresh fresh id next
    have notFirst : c.next? p ≠ some q := by
      rw [link]
      exact fun same => wf.ne_of_next? next (Option.some.inj same)
    rw [previous₁, if_neg notFresh, if_neg notFirst, (wf.symmetric id q).mp next]
  have idNe : id ≠ n := by
    rintro rfl
    exact wf.next?_ne_fresh fresh p link
  obtain ⟨h, head⟩ := wf.exists_head (wf.linked_of_next? link).1
  rw [← orphanAll_singleton]
  constructor
  case next? =>
    intro x
    rw [next?_orphanAll]
    by_cases out : x = id
    · simp [out]
    · rw [next?_linkTo (by simpa using knownFresh) stuck, next₁]
      · by_cases h : x = p
        · subst h
          simp [different, out]
        · by_cases h' : x = n
          · simp [h', different.symm]
          · simp [h, h', Ne.symm h']
      · intro q y next previous
        rw [back q next] at previous
        rw [← Option.some.inj previous]
        simpa using known_of_next? next
      · intro q next same
        rw [back q next] at same
        exact out (Option.some.inj same).symm
  case previous? =>
    intro x
    rw [previous?_orphanAll]
    by_cases out : x = id
    · simp [out]
    · rw [previous?_linkTo stuck fun q next => known_link.mpr (wf.inRange id q (.inl next)),
        previous₁, link]
      by_cases h : c.next? id = some x
      · simp [h]
      · by_cases h' : x = n
        · simp [h']
        · simp [h, h', Ne.symm h', Ne.symm out]
  case state? =>
    intro x
    rw [state?_orphanAll]
    · rw [state?_linkTo (by simp [state₁]) fun q => wf.state?_link_fresh fresh site.known,
        state₁]
      simp [eq_comm (a := n)]
    · simpa [known_iff_lt] using known_iff_lt.mp (known_of_previous? previous)
  case token? =>
    intro x
    simp
  case size =>
    simp
  case head =>
    rw [orphanAll_singleton, head_orphan, head_linkTo, head_link, head]
    simp

section Remove
variable {removed : List NodeId} (wf : c.WellFormed) (previous : c.previous? first = some p)
  (span : c.span first last = .ok removed)
include wf previous span

theorem WellFormed.site_remove : c.Site p removed (c.next? last) none := by
  obtain ⟨-, -, path, head, final⟩ := wf.span_ok.mp span
  cases removed with
  | nil => simp at head
  | cons f rest =>
    obtain rfl : f = first := by simpa using head
    refine ⟨?_, ?_, wf.inRange f p (.inr previous), by simp⟩
    · simpa using ⟨(wf.symmetric p f).mpr previous, path⟩
    · rw [List.getLast?_eq_some_getLast (by simp), Option.some.injEq] at final
      simp [final]

/-- The nodes from `first` to `last` taken out. -/
theorem WellFormed.spliced_remove :
    Spliced c ((match c.next? last with
      | some after => c.link p after
      | none => c.update p fun n => { n with next := none }).orphanAll p removed)
      p removed (c.next? last) none := by
  have site := wf.site_remove previous span
  obtain ⟨knownFirst, -, path, head, final⟩ := wf.span_ok.mp span
  have link := (wf.symmetric p first).mpr previous
  have outside := (site.not_mem wf).1
  have firstIn : first ∈ removed := List.mem_of_mem_head? head
  have lastIn : last ∈ removed := List.mem_of_getLast? final
  obtain ⟨linkedPlace, -⟩ := wf.linked_of_next? link
  obtain ⟨h, chainHead⟩ := wf.exists_head linkedPlace
  have known : ∀ x ∈ removed, c.Known x := wf.path_known_of_mem path firstIn knownFirst
  constructor
  case next? =>
    intro x
    rw [next?_orphanAll]
    by_cases inside : x ∈ removed
    · simp [inside]
    · cases next : c.next? last with
      | none =>
        rw [next?_update_const (v := none) (by exact fun _ => rfl) site.known]
        simp
      | some q =>
        have back := (wf.symmetric last q).mp next
        have notLast : last ≠ x := by
          rintro rfl
          exact inside lastIn
        rw [next?_link site.known fun y before => wf.inRange q y (.inr before), back]
        simp [notLast]
  case previous? =>
    intro x
    rw [previous?_orphanAll]
    by_cases inside : x ∈ removed
    · simp [inside]
    · cases next : c.next? last with
      | none =>
        rw [previous?_update_of_eq (by exact fun _ => rfl)]
        simp
      | some q =>
        have notFirst : first ≠ x := by
          rintro rfl
          exact inside firstIn
        rw [previous?_link (wf.inRange last q (.inl next)) fun y h => wf.inRange p y (.inl h), link]
        simp [notFirst, eq_comm (a := q)]
  case state? =>
    intro x
    rw [state?_orphanAll]
    · by_cases inside : x ∈ removed
      · simp [inside]
      · cases next : c.next? last with
        | none =>
          rw [state?_update_of_eq (by exact fun _ => rfl)]
          by_cases h : x = p <;> simp [inside, h, linkedPlace]
        | some q =>
          have linkedAfter := (wf.linked_of_next? next).2
          rw [state?_link site.known (wf.inRange last q (.inl next))]
          by_cases h : x = p <;> by_cases h' : x = q <;> simp [inside, h, h', linkedAfter]
    · intro x inside
      split <;> simpa using known x inside
  case token? =>
    intro x
    rw [token?_orphanAll]
    split
    · simp
    · exact token?_update (by exact fun _ => rfl)
  case size =>
    rw [size_orphanAll]
    split <;> simp
  case head =>
    rw [head_orphanAll outside]
    have same : (match c.next? last with
      | some after => c.link p after
      | none => c.update p fun n => { n with next := none }).head = some h := by
      split <;> simp [chainHead]
    rw [same, chainHead]
    by_cases inside : h ∈ removed <;> simp [inside]

end Remove

/-! ### The edits at a place -/

section Edits
variable {u : Unit}

theorem insertAfter_isOk :
    (∃ d, insertAfter id n c = .ok () d) ↔ c.Usable id ∧ c.state? n = some .unlinked := by
  simp only [insertAfter, commit_ok]
  constructor
  · rintro ⟨_, ⟨⟩, ok, -⟩
    exact checkAfter_ok.mp ok
  · intro ok
    exact ⟨_, (), checkAfter_ok.mpr ok, rfl⟩

theorem WellFormed.insertAfter_spliced (wf : c.WellFormed) (different : id ≠ n)
    (done : insertAfter id n c = .ok u d) :
    c.Site id [] (c.next? id) (some n) ∧ Spliced c d id [] (c.next? id) (some n) := by
  obtain ⟨⟨⟩, check, rfl⟩ := commit_ok.mp done
  obtain ⟨usable, fresh⟩ := checkAfter_ok.mp check
  have spliced := wf.spliced_insert fresh usable.known different
  have same : c.head.or (some id) = (((c.link id n).linkTo n (c.next? id)).head <|> some id) := by
    simp [Option.orElse_eq_or]
  rw [same] at spliced
  exact ⟨site_insert fresh usable.known different, spliced.countEdit⟩

theorem insertBefore_isOk : (∃ d, insertBefore id n c = .ok () d) ↔
    c.Usable id ∧ c.state? n = some .unlinked ∧ ∃ p, c.previous? id = some p := by
  simp only [insertBefore, commit_ok, checkBefore_ok]
  constructor
  · rintro ⟨_, p, ⟨usable, fresh, previous⟩, -⟩
    exact ⟨usable, fresh, p, previous⟩
  · rintro ⟨usable, fresh, p, previous⟩
    exact ⟨_, p, ⟨usable, fresh, previous⟩, rfl⟩

theorem WellFormed.insertBefore_spliced (wf : c.WellFormed) (done : insertBefore id n c = .ok u d) :
    ∃ p, c.next? p = some id ∧ c.Site p [] (some id) (some n) ∧
      Spliced c d p [] (some id) (some n) := by
  obtain ⟨p, check, rfl⟩ := commit_ok.mp done
  obtain ⟨-, fresh, previous⟩ := checkBefore_ok.mp check
  have link := (wf.symmetric p id).mpr previous
  have known := known_of_next? link
  obtain ⟨linked, -⟩ := wf.linked_of_next? link
  have different : p ≠ n := by
    rintro rfl
    simp [linked] at fresh
  obtain ⟨h, head⟩ := wf.exists_head linked
  have site := site_insert fresh known different
  have spliced := wf.spliced_insert fresh known different
  have same : c.head.or (some p) = ((c.link p n).link n id).head := by simp [head]
  rw [link, linkTo, same, withHead_head] at spliced
  rw [link] at site
  exact ⟨p, link, site, spliced.countEdit⟩

theorem replace_isOk : (∃ d, replace id n c = .ok () d) ↔
    c.Usable id ∧ c.state? n = some .unlinked ∧ ∃ p, c.previous? id = some p := by
  simp only [replace, commit_ok, checkBefore_ok]
  constructor
  · rintro ⟨_, p, ⟨usable, fresh, previous⟩, -⟩
    exact ⟨usable, fresh, p, previous⟩
  · rintro ⟨usable, fresh, p, previous⟩
    exact ⟨_, p, ⟨usable, fresh, previous⟩, rfl⟩

theorem WellFormed.replace_spliced (wf : c.WellFormed) (done : replace id n c = .ok u d) :
    ∃ p, c.next? p = some id ∧ c.Site p [id] (c.next? id) (some n) ∧
      Spliced c d p [id] (c.next? id) (some n) := by
  obtain ⟨p, check, rfl⟩ := commit_ok.mp done
  obtain ⟨-, fresh, previous⟩ := checkBefore_ok.mp check
  exact ⟨p, (wf.symmetric p id).mpr previous, wf.site_replace fresh previous,
    (wf.spliced_replace fresh previous).countEdit⟩

theorem removeSpan_isOk : (∃ d, removeSpan first last c = .ok () d) ↔ c.Usable first ∧
    c.Usable last ∧ (∃ p, c.previous? first = some p) ∧ ∃ removed, c.span first last = .ok removed := by
  simp only [removeSpan, commit_ok]
  constructor
  · rintro ⟨_, ⟨p, removed⟩, check, -⟩
    obtain ⟨left, right, previous, span⟩ := checkRemove_ok.mp check
    exact ⟨left, right, ⟨p, previous⟩, removed, span⟩
  · rintro ⟨left, right, ⟨p, previous⟩, removed, span⟩
    exact ⟨_, (p, removed), checkRemove_ok.mpr ⟨left, right, previous, span⟩, rfl⟩

theorem WellFormed.removeSpan_spliced (wf : c.WellFormed) (done : removeSpan first last c = .ok u d) :
    ∃ p removed, c.next? p = some first ∧ c.span first last = .ok removed ∧
      c.Site p removed (c.next? last) none ∧ Spliced c d p removed (c.next? last) none := by
  obtain ⟨⟨p, removed⟩, check, rfl⟩ := commit_ok.mp done
  obtain ⟨-, -, previous, span⟩ := checkRemove_ok.mp check
  exact ⟨p, removed, (wf.symmetric p first).mpr previous, span, wf.site_remove previous span,
    (wf.spliced_remove previous span).countEdit⟩

end Edits

end Restyle.Chain
