import Mathlib.Logic.Basic
import Mathlib.Data.List.Basic
import Restyle.Chain.Edit

/-!
# The table of a chain, link by link

What each change to the table does to the links, the states and the tokens of the nodes, one
equation for each view of a node. Nothing after this module opens `update`, `link` or `orphan`.
-/

namespace Restyle

theorem NodeId.index_inj {a b : NodeId} : a.index = b.index ↔ a = b := by
  cases a
  cases b
  simp [NodeId.index, UInt32.toNat_inj]

namespace Chain
variable {c : Chain} {a b id x : NodeId}

/-! ### Views of a node -/

def state? (c : Chain) (id : NodeId) : Option NodeState := (c.get? id).map (·.state)

def token? (c : Chain) (id : NodeId) : Option Token := (c.get? id).map (·.token)

def Known (c : Chain) (id : NodeId) : Prop := ∃ node, c.get? id = some node

theorem known_of_state? {s : NodeState} (h : c.state? id = some s) : c.Known id := by
  obtain ⟨node, found, -⟩ := Option.map_eq_some_iff.mp h
  exact ⟨node, found⟩

theorem known_of_next? (h : c.next? a = some b) : c.Known a := by
  obtain ⟨node, found, -⟩ := Option.bind_eq_some_iff.mp h
  exact ⟨node, found⟩

theorem known_of_previous? (h : c.previous? a = some b) : c.Known a := by
  obtain ⟨node, found, -⟩ := Option.bind_eq_some_iff.mp h
  exact ⟨node, found⟩

theorem known_iff_lt : c.Known id ↔ id.index < c.size := by
  simp only [Known, get?, size]
  constructor
  · rintro ⟨node, found⟩
    exact (Array.getElem?_eq_some_iff.mp found).1
  · intro bound
    exact ⟨_, Array.getElem?_eq_getElem bound⟩

theorem Known.state? (known : c.Known id) : ∃ s, c.state? id = some s := by
  obtain ⟨node, found⟩ := known
  exact ⟨node.state, by simp [Chain.state?, found]⟩

theorem not_known_iff : ¬ c.Known id ↔ c.get? id = none := by
  simp [Known, Option.eq_none_iff_forall_ne_some]

theorem next?_of_get? {node : Node} (found : c.get? id = some node) : c.next? id = node.next := by
  simp [next?, found]

theorem previous?_of_get? {node : Node} (found : c.get? id = some node) :
    c.previous? id = node.previous := by
  simp [previous?, found]

theorem textOf_eq_of_token? {d : Chain} {x : NodeId} (same : d.token? x = c.token? id) :
    d.textOf x = c.textOf id := by
  simp only [token?] at same
  simp only [textOf]
  cases hc : c.get? id <;> cases hd : d.get? x <;> simp_all

theorem textOf_of_token? {t : Token} (token : c.token? id = some t) : c.textOf id = t.text := by
  obtain ⟨node, found, rfl⟩ := Option.map_eq_some_iff.mp token
  simp [textOf, found]

theorem known_iff_token? : c.Known id ↔ ∃ t, c.token? id = some t := by
  simp [Known, token?]

theorem tokenIs_of_token? {t : Token} (token : c.token? id = some t) (p : Token → Bool) :
    c.tokenIs p id = p t := by
  obtain ⟨node, found, rfl⟩ := Option.map_eq_some_iff.mp token
  simp [tokenIs, found]

theorem tokenIs_iff {p : Token → Bool} :
    c.tokenIs p id = true ↔ ∃ t, c.token? id = some t ∧ p t = true := by
  cases found : c.get? id <;> simp [tokenIs, token?, found]

theorem tokenIs_eq_of_token? {d : Chain} {x : NodeId} (same : d.token? x = c.token? id)
    (p : Token → Bool) : d.tokenIs p x = c.tokenIs p id := by
  simp only [token?] at same
  simp only [tokenIs]
  cases hc : c.get? id <;> cases hd : d.get? x <;> simp_all

/-! ### One node changed -/

section Update
variable {f : Node → Node}

theorem get?_update (c : Chain) (id : NodeId) (f : Node → Node) (x : NodeId) :
    (c.update id f).get? x = if x = id then (c.get? x).map f else c.get? x := by
  simp only [update, get?, Array.getElem?_modify]
  by_cases h : x = id
  · simp [h]
  · simp [h, NodeId.index_inj, Ne.symm h]

@[simp] theorem size_update : (c.update id f).size = c.size := by simp [update, size]

@[simp] theorem head_update : (c.update id f).head = c.head := rfl

@[simp] theorem edits_update : (c.update id f).edits = c.edits := rfl

@[simp] theorem capacity_update : (c.update id f).capacity = c.capacity := rfl

@[simp] theorem known_update : (c.update id f).Known x ↔ c.Known x := by
  simp [known_iff_lt]

theorem next?_update_of_eq (same : ∀ n, (f n).next = n.next) :
    (c.update id f).next? x = c.next? x := by
  simp only [next?, get?_update]
  split
  · cases c.get? x <;> simp [same]
  · rfl

theorem previous?_update_of_eq (same : ∀ n, (f n).previous = n.previous) :
    (c.update id f).previous? x = c.previous? x := by
  simp only [previous?, get?_update]
  split
  · cases c.get? x <;> simp [same]
  · rfl

theorem state?_update_of_eq (same : ∀ n, (f n).state = n.state) :
    (c.update id f).state? x = c.state? x := by
  simp only [Chain.state?, get?_update]
  split
  · cases c.get? x <;> simp [same]
  · rfl

theorem token?_update (same : ∀ n, (f n).token = n.token) :
    (c.update id f).token? x = c.token? x := by
  simp only [token?, get?_update]
  split
  · cases c.get? x <;> simp [same]
  · rfl

theorem next?_update_const {v : Option NodeId} (set : ∀ n, (f n).next = v) (known : c.Known id) :
    (c.update id f).next? x = if x = id then v else c.next? x := by
  obtain ⟨node, found⟩ := known
  simp only [next?, get?_update]
  split
  · rename_i same
    simp [same, found, set]
  · rfl

theorem previous?_update_const {v : Option NodeId} (set : ∀ n, (f n).previous = v)
    (known : c.Known id) : (c.update id f).previous? x = if x = id then v else c.previous? x := by
  obtain ⟨node, found⟩ := known
  simp only [previous?, get?_update]
  split
  · rename_i same
    simp [same, found, set]
  · rfl

theorem state?_update_const {s : NodeState} (set : ∀ n, (f n).state = s) (known : c.Known id) :
    (c.update id f).state? x = if x = id then some s else c.state? x := by
  obtain ⟨node, found⟩ := known
  simp only [Chain.state?, get?_update]
  split
  · rename_i same
    simp [same, found, set]
  · rfl

end Update

/-! ### Linking two nodes -/

section Link

@[simp] theorem size_releaseNext : (c.releaseNext a b).size = c.size := by
  unfold releaseNext
  repeat' split
  all_goals simp

@[simp] theorem size_releasePrevious : (c.releasePrevious a b).size = c.size := by
  unfold releasePrevious
  repeat' split
  all_goals simp

@[simp] theorem next?_releaseNext : (c.releaseNext a b).next? x = c.next? x := by
  unfold releaseNext
  repeat' split
  all_goals first | rfl | exact next?_update_of_eq fun _ => rfl

@[simp] theorem previous?_releasePrevious : (c.releasePrevious a b).previous? x = c.previous? x := by
  unfold releasePrevious
  repeat' split
  all_goals first | rfl | exact previous?_update_of_eq fun _ => rfl

/-- Only what came after `a` loses its `previous` link. -/
theorem previous?_releaseNext (known : ∀ y, c.next? a = some y → c.Known y) :
    (c.releaseNext a b).previous? x =
      if c.next? a = some x ∧ x ≠ b then none else c.previous? x := by
  unfold releaseNext
  split
  · rename_i old next
    by_cases h : old = b
    · rw [if_pos h, if_neg]
      rintro ⟨same, different⟩
      exact different (by rw [← h]; exact Option.some.inj (same.symm.trans next))
    · rw [if_neg h, previous?_update_const (v := none) (by exact fun _ => rfl) (known old next),
        next]
      by_cases hx : x = old
      · simp [hx, h]
      · simp [hx, Ne.symm hx]
  · rename_i next
    simp [next]

/-- Only what came before `b` loses its `next` link. -/
theorem next?_releasePrevious (known : ∀ y, c.previous? b = some y → c.Known y) :
    (c.releasePrevious a b).next? x =
      if c.previous? b = some x ∧ x ≠ a then none else c.next? x := by
  unfold releasePrevious
  split
  · rename_i old previous
    by_cases h : old = a
    · rw [if_pos h, if_neg]
      rintro ⟨same, different⟩
      exact different (by rw [← h]; exact Option.some.inj (same.symm.trans previous))
    · rw [if_neg h, next?_update_const (v := none) (by exact fun _ => rfl) (known old previous),
        previous]
      by_cases hx : x = old
      · simp [hx, h]
      · simp [hx, Ne.symm hx]
  · rename_i previous
    simp [previous]

@[simp] theorem state?_releaseNext : (c.releaseNext a b).state? x = c.state? x := by
  unfold releaseNext
  repeat' split
  all_goals first | rfl | exact state?_update_of_eq fun _ => rfl

@[simp] theorem state?_releasePrevious : (c.releasePrevious a b).state? x = c.state? x := by
  unfold releasePrevious
  repeat' split
  all_goals first | rfl | exact state?_update_of_eq fun _ => rfl

@[simp] theorem token?_releaseNext : (c.releaseNext a b).token? x = c.token? x := by
  unfold releaseNext
  repeat' split
  all_goals first | rfl | exact token?_update fun _ => rfl

@[simp] theorem token?_releasePrevious : (c.releasePrevious a b).token? x = c.token? x := by
  unfold releasePrevious
  repeat' split
  all_goals first | rfl | exact token?_update fun _ => rfl

@[simp] theorem head_link : (c.link a b).head = c.head := by
  simp only [link, head_update, releasePrevious, releaseNext]
  repeat' split
  all_goals simp

@[simp] theorem edits_link : (c.link a b).edits = c.edits := by
  simp only [link, edits_update, releasePrevious, releaseNext]
  repeat' split
  all_goals simp

@[simp] theorem capacity_link : (c.link a b).capacity = c.capacity := by
  simp only [link, capacity_update, releasePrevious, releaseNext]
  repeat' split
  all_goals simp

@[simp] theorem size_link : (c.link a b).size = c.size := by simp [link]

@[simp] theorem known_link : (c.link a b).Known x ↔ c.Known x := by simp [known_iff_lt]

theorem next?_link (ha : c.Known a) (partner : ∀ y, c.previous? b = some y → c.Known y) :
    (c.link a b).next? x =
      if x = a then some b else if c.previous? b = some x then none else c.next? x := by
  have same : (c.releaseNext a b).previous? b = c.previous? b := by
    unfold releaseNext
    split
    · split
      · rfl
      · rename_i old _ different
        simp [previous?, get?_update, Ne.symm different]
    · rfl
  have known : ((c.releaseNext a b).releasePrevious a b).Known a := by
    simpa [known_iff_lt] using ha
  simp only [link]
  rw [next?_update_of_eq (by exact fun _ => rfl),
    next?_update_const (v := some b) (by exact fun _ => rfl) known]
  by_cases h : x = a
  · simp [h]
  · rw [if_neg h, if_neg h, next?_releasePrevious, next?_releaseNext, same]
    · simp [h]
    · intro y before
      rw [same] at before
      simpa [known_iff_lt] using partner y before

theorem previous?_link (hb : c.Known b) (partner : ∀ y, c.next? a = some y → c.Known y) :
    (c.link a b).previous? x =
      if x = b then some a else if c.next? a = some x then none else c.previous? x := by
  have known : (((c.releaseNext a b).releasePrevious a b).update a fun n =>
      { n with next := some b, state := .linked }).Known b := by
    simpa [known_iff_lt] using hb
  simp only [link]
  rw [previous?_update_const (v := some a) (by exact fun _ => rfl) known,
    previous?_update_of_eq (by exact fun _ => rfl), previous?_releasePrevious,
    previous?_releaseNext partner]
  by_cases h : x = b
  · simp [h]
  · simp [h]

theorem state?_link (ha : c.Known a) (hb : c.Known b) :
    (c.link a b).state? x = if x = a ∨ x = b then some .linked else c.state? x := by
  have known : (((c.releaseNext a b).releasePrevious a b).update a fun n =>
      { n with next := some b, state := .linked }).Known b := by
    simpa [known_iff_lt] using hb
  simp only [link]
  rw [state?_update_const (s := .linked) (by exact fun _ => rfl) known,
    state?_update_const (s := .linked) (by exact fun _ => rfl) (by simpa [known_iff_lt] using ha),
    state?_releasePrevious, state?_releaseNext]
  by_cases h : x = b <;> by_cases h' : x = a <;> simp [h, h']

@[simp] theorem token?_link : (c.link a b).token? x = c.token? x := by
  simp only [link]
  rw [token?_update (by exact fun _ => rfl), token?_update (by exact fun _ => rfl),
    token?_releasePrevious, token?_releaseNext]

end Link

/-! ### Taking nodes out -/

section Orphan
variable {survivor : NodeId} {removed : List NodeId}

@[simp] theorem size_orphan : (c.orphan survivor id).size = c.size := by
  simp only [orphan]
  split <;> simp [size, update]

@[simp] theorem edits_orphan : (c.orphan survivor id).edits = c.edits := by
  simp only [orphan]
  split <;> rfl

@[simp] theorem capacity_orphan : (c.orphan survivor id).capacity = c.capacity := by
  simp only [orphan]
  split <;> rfl

theorem head_orphan :
    (c.orphan survivor id).head = if c.head = some id then some survivor else c.head := by
  simp only [orphan, head_update]
  by_cases h : c.head = some id <;> simp [h]

theorem get?_orphan :
    (c.orphan survivor id).get? x = if x = id then (c.get? x).map Node.orphan else c.get? x := by
  rw [← get?_update]
  simp only [orphan]
  split <;> rfl

@[simp] theorem token?_orphan : (c.orphan survivor id).token? x = c.token? x := by
  simp only [token?, get?_orphan]
  split
  · cases c.get? x <;> simp [Node.orphan]
  · rfl

def orphanAll (c : Chain) (survivor : NodeId) (removed : List NodeId) : Chain :=
  removed.foldl (fun c id => c.orphan survivor id) c

theorem orphanAll_singleton : c.orphanAll survivor [id] = c.orphan survivor id := rfl

theorem get?_orphanAll : (c.orphanAll survivor removed).get? x =
    if x ∈ removed then (c.get? x).map Node.orphan else c.get? x := by
  induction removed generalizing c with
  | nil => simp [orphanAll]
  | cons id rest ih =>
    have step : c.orphanAll survivor (id :: rest) = (c.orphan survivor id).orphanAll survivor rest :=
      rfl
    rw [step, ih, get?_orphan]
    have again : Node.orphan ∘ Node.orphan = Node.orphan := rfl
    by_cases h : x = id
    · subst h
      simp [again]
    · simp [h]

@[simp] theorem size_orphanAll : (c.orphanAll survivor removed).size = c.size := by
  induction removed generalizing c with
  | nil => rfl
  | cons id rest ih => exact (ih (c := c.orphan survivor id)).trans size_orphan

@[simp] theorem edits_orphanAll : (c.orphanAll survivor removed).edits = c.edits := by
  induction removed generalizing c with
  | nil => rfl
  | cons id rest ih => exact (ih (c := c.orphan survivor id)).trans edits_orphan

@[simp] theorem capacity_orphanAll : (c.orphanAll survivor removed).capacity = c.capacity := by
  induction removed generalizing c with
  | nil => rfl
  | cons id rest ih => exact (ih (c := c.orphan survivor id)).trans capacity_orphan

theorem head_orphanAll (survives : survivor ∉ removed) : (c.orphanAll survivor removed).head =
    if ∃ id ∈ removed, c.head = some id then some survivor else c.head := by
  induction removed generalizing c with
  | nil => simp [orphanAll]
  | cons id rest ih =>
    have step : c.orphanAll survivor (id :: rest) = (c.orphan survivor id).orphanAll survivor rest :=
      rfl
    simp only [List.mem_cons, not_or] at survives
    rw [step, ih survives.2, head_orphan]
    by_cases h : c.head = some id
    · simp [h, survives.2]
    · simp [h]

theorem next?_orphanAll :
    (c.orphanAll survivor removed).next? x = if x ∈ removed then none else c.next? x := by
  simp only [next?, get?_orphanAll]
  split
  · cases c.get? x <;> simp [Node.orphan]
  · rfl

theorem previous?_orphanAll :
    (c.orphanAll survivor removed).previous? x = if x ∈ removed then none else c.previous? x := by
  simp only [previous?, get?_orphanAll]
  split
  · cases c.get? x <;> simp [Node.orphan]
  · rfl

theorem state?_orphanAll (known : ∀ id ∈ removed, c.Known id) :
    (c.orphanAll survivor removed).state? x =
      if x ∈ removed then some .orphaned else c.state? x := by
  simp only [Chain.state?, get?_orphanAll]
  split
  · rename_i member
    obtain ⟨node, found⟩ := known x member
    simp [found, Node.orphan]
  · rfl

@[simp] theorem token?_orphanAll : (c.orphanAll survivor removed).token? x = c.token? x := by
  simp only [token?, get?_orphanAll]
  split
  · cases c.get? x <;> simp [Node.orphan]
  · rfl

theorem foldl_mark (ids : List NodeId) (marks : Array Bool) (id : NodeId)
    (bound : id.index < marks.size) :
    (ids.foldl (fun marks id => marks.setIfInBounds id.index true) marks)[id.index]? = some true ↔
      id ∈ ids ∨ marks[id.index]? = some true := by
  induction ids generalizing marks with
  | nil => simp
  | cons first rest ih =>
    rw [List.foldl_cons, ih _ (by simpa using bound), Array.getElem?_setIfInBounds]
    by_cases h : id = first
    · subst h
      simp [bound]
    · have different : first.index ≠ id.index := fun same => h (NodeId.index_inj.mp same).symm
      simp [h, different]

/-- The marked places of the table are those of the chain proper. -/
theorem getElem?_marks (known : c.Known id) :
    c.marks[id.index]? = some true ↔ id ∈ c.order := by
  have bound := known_iff_lt.mp known
  rw [marks, foldl_mark _ _ _ (by simpa using bound)]
  simp [Array.getElem?_replicate]

theorem get?_orphanStray : c.orphanStray.get? x =
    (c.get? x).map fun n => if n.state = .linked ∧ x ∉ c.order then n.orphan else n := by
  cases found : c.get? x with
  | none =>
    simp only [get?] at found
    simp [orphanStray, get?, found]
  | some node =>
    have marked := getElem?_marks ⟨node, found⟩
    simp only [get?] at found
    simp only [orphanStray, get?, Array.getElem?_mapIdx, found, Option.map_some, ne_eq, marked]

@[simp] theorem size_orphanStray : c.orphanStray.size = c.size := by simp [orphanStray, size]

@[simp] theorem head_orphanStray : c.orphanStray.head = c.head := rfl

@[simp] theorem token?_orphanStray : c.orphanStray.token? x = c.token? x := by
  simp only [token?, get?_orphanStray]
  cases c.get? x with
  | none => rfl
  | some node =>
    simp only [Option.map_some]
    split <;> rfl

/-- A node off the chain proper loses its links if it was linked. -/
theorem next?_orphanStray : c.orphanStray.next? x =
    if c.state? x = some .linked ∧ x ∉ c.order then none else c.next? x := by
  simp only [next?, Chain.state?, get?_orphanStray]
  rcases Option.eq_none_or_eq_some (c.get? x) with found | ⟨node, found⟩
  · simp [found]
  · by_cases h : node.state = .linked ∧ x ∉ c.order <;> simp [found, h, Node.orphan]

theorem previous?_orphanStray : c.orphanStray.previous? x =
    if c.state? x = some .linked ∧ x ∉ c.order then none else c.previous? x := by
  simp only [previous?, Chain.state?, get?_orphanStray]
  rcases Option.eq_none_or_eq_some (c.get? x) with found | ⟨node, found⟩
  · simp [found]
  · by_cases h : node.state = .linked ∧ x ∉ c.order <;> simp [found, h, Node.orphan]

theorem state?_orphanStray : c.orphanStray.state? x =
    if c.state? x = some .linked ∧ x ∉ c.order then some .orphaned else c.state? x := by
  simp only [Chain.state?, get?_orphanStray]
  rcases Option.eq_none_or_eq_some (c.get? x) with found | ⟨node, found⟩
  · simp [found]
  · by_cases h : node.state = .linked ∧ x ∉ c.order <;> simp [found, h, Node.orphan]

end Orphan

/-! ### Another head -/

section Head
variable {h : Option NodeId}

def withHead (c : Chain) (h : Option NodeId) : Chain := { c with head := h }

@[simp] theorem withHead_head : c.withHead c.head = c := rfl

@[simp] theorem head_withHead : (c.withHead h).head = h := rfl

@[simp] theorem next?_withHead : (c.withHead h).next? x = c.next? x := rfl

@[simp] theorem previous?_withHead : (c.withHead h).previous? x = c.previous? x := rfl

@[simp] theorem state?_withHead : (c.withHead h).state? x = c.state? x := rfl

@[simp] theorem token?_withHead : (c.withHead h).token? x = c.token? x := rfl

@[simp] theorem size_withHead : (c.withHead h).size = c.size := rfl

end Head

/-! ### A new node -/

section Push
variable {token : Token}

def push (c : Chain) (token : Token) : Chain := { c with nodes := c.nodes.push { token } }

theorem get?_push :
    (c.push token).get? x = if x.index = c.size then some { token } else c.get? x := by
  simp only [push, get?, size, Array.getElem?_push]
  by_cases h : x.index = c.nodes.size <;> simp [h]

@[simp] theorem size_push : (c.push token).size = c.size + 1 := by simp [push, size]

@[simp] theorem head_push : (c.push token).head = c.head := rfl

@[simp] theorem edits_push : (c.push token).edits = c.edits := rfl

@[simp] theorem capacity_push : (c.push token).capacity = c.capacity := rfl

theorem get?_of_index_eq_size (new : x.index = c.size) : c.get? x = none := by
  simp [get?, new, size]

@[simp] theorem next?_push : (c.push token).next? x = c.next? x := by
  simp only [next?, get?_push]
  split
  · rename_i new
    simp [get?_of_index_eq_size new]
  · rfl

@[simp] theorem previous?_push : (c.push token).previous? x = c.previous? x := by
  simp only [previous?, get?_push]
  split
  · rename_i new
    simp [get?_of_index_eq_size new]
  · rfl

theorem state?_push : (c.push token).state? x =
    if x.index = c.size then some .unlinked else c.state? x := by
  simp only [Chain.state?, get?_push]
  split <;> rfl

theorem token?_push : (c.push token).token? x =
    if x.index = c.size then some token else c.token? x := by
  simp only [token?, get?_push]
  split <;> rfl

end Push

end Chain

end Restyle
