import Restyle.Proofs.Chain.Lifecycle

/-!
# Nodes as their own neighbors

Joins, replacements and insertions before a node never link a node to itself. An insertion after a
node does, if that node has no place yet: it is then its own neighbor. That is the only way to get
such a node (`self_links_of_history`).
-/

namespace Restyle

def Node.Idle (n : Node) : Prop := n.state = .unlinked → n.previous = none ∧ n.next = none

theorem Node.idle_orphan (n : Node) : n.orphan.Idle := by
  intro free
  cases free

namespace Chain
open Outcome
variable {c d : Chain} {a b id x : NodeId} {f : Node → Node}

/-- No node without a place has links. Unlike the links between placed nodes, these are in order
after any command, one that puts a node after itself included. -/
def Untangled (c : Chain) : Prop := ∀ id node, c.get? id = some node → node.Idle

theorem Untangled.links (untangled : c.Untangled) (free : c.state? x = some .unlinked) :
    c.previous? x = none ∧ c.next? x = none := by
  obtain ⟨node, found, state⟩ := Option.map_eq_some_iff.mp free
  rw [previous?_of_get? found, next?_of_get? found]
  exact untangled x node found state

theorem WellFormed.untangled (wf : c.WellFormed) : c.Untangled := by
  intro id node found free
  obtain ⟨next, previous⟩ := wf.idle id .unlinked (by simp [Chain.state?, found, free]) (by simp)
  rw [next?_of_get? found] at next
  rw [previous?_of_get? found] at previous
  exact ⟨previous, next⟩

/-! ### Changes to the table -/

theorem Untangled.update (untangled : c.Untangled) (keeps : ∀ n : Node, n.Idle → (f n).Idle) :
    (c.update id f).Untangled := by
  intro x node found
  rw [get?_update] at found
  split at found
  · obtain ⟨old, there, rfl⟩ := Option.map_eq_some_iff.mp found
    exact keeps old (untangled x old there)
  · exact untangled x node found

theorem Untangled.push (untangled : c.Untangled) (token : Token) : (c.push token).Untangled := by
  intro x node found
  rw [get?_push] at found
  split at found
  · obtain rfl := Option.some.inj found
    exact fun _ => ⟨rfl, rfl⟩
  · exact untangled x node found

theorem Untangled.link (untangled : c.Untangled) (a b : NodeId) : (c.link a b).Untangled := by
  have first : (c.releaseNext a b).Untangled := by
    unfold releaseNext
    split
    · split
      · exact untangled
      · exact untangled.update fun n idle free => ⟨rfl, (idle free).2⟩
    · exact untangled
  have second : ((c.releaseNext a b).releasePrevious a b).Untangled := by
    unfold releasePrevious
    split
    · split
      · exact first
      · exact first.update fun n idle free => ⟨(idle free).1, rfl⟩
    · exact first
  unfold Chain.link
  apply Untangled.update
  · apply second.update
    intro n _ free
    cases free
  · intro n _ free
    cases free

theorem Untangled.linkTo (untangled : c.Untangled) (a : NodeId) (q : Option NodeId) :
    (c.linkTo a q).Untangled := by
  cases q with
  | none => exact untangled
  | some b => exact untangled.link a b

theorem Untangled.orphanAll (untangled : c.Untangled) (survivor : NodeId) (removed : List NodeId) :
    (c.orphanAll survivor removed).Untangled := by
  intro x node found
  rw [get?_orphanAll] at found
  split at found
  · obtain ⟨old, -, rfl⟩ := Option.map_eq_some_iff.mp found
    exact Node.idle_orphan old
  · exact untangled x node found

theorem Untangled.orphanStray (untangled : c.Untangled) : c.orphanStray.Untangled := by
  intro x node found
  rw [get?_orphanStray] at found
  obtain ⟨old, there, rfl⟩ := Option.map_eq_some_iff.mp found
  split
  · exact Node.idle_orphan old
  · exact untangled x old there

/-! ### Commands -/

theorem Untangled.after_commit {α : Type} {check : Chain → Except ChainError α}
    {change : α → Chain → Chain} {command : Command} (untangled : c.Untangled)
    (run : command.run = do commit check change; return none)
    (keeps : ∀ y, (change y c).Untangled) : (c.after command).Untangled := by
  rcases after_of_run (c := c) command run with done | ⟨error, failed⟩
  · obtain ⟨y, -, made⟩ := commit_ok.mp done
    rw [made]
    exact keeps y
  · rwa [commit_error failed]

theorem Untangled.after_removeSpan {first last : NodeId} {command : Command} (untangled : c.Untangled)
    (run : command.run = do removeSpan first last; return none) : (c.after command).Untangled := by
  apply untangled.after_commit run
  rintro ⟨p, removed⟩
  apply Untangled.orphanAll
  cases c.next? last with
  | some after => exact untangled.link p after
  | none => exact untangled.update fun n idle free => ⟨(idle free).1, rfl⟩

theorem Untangled.after (untangled : c.Untangled) (command : Command) : (c.after command).Untangled := by
  cases command with
  | create token =>
    rcases after_create (c := c) token with same | same
    · rw [same]
      exact untangled.push token
    · rwa [same]
  | join a b =>
    apply untangled.after_commit rfl
    intro _
    exact Untangled.orphanStray (untangled.link a b)
  | replace id fresh =>
    apply untangled.after_commit rfl
    intro p
    exact Untangled.orphanAll ((untangled.link p fresh).linkTo fresh (c.next? id)) p [id]
  | insertBefore id fresh =>
    apply untangled.after_commit rfl
    intro p
    exact (untangled.link p fresh).link fresh id
  | insertAfter id fresh =>
    apply untangled.after_commit rfl
    intro _
    exact (untangled.link id fresh).linkTo fresh (c.next? id)
  | remove id => exact untangled.after_removeSpan rfl
  | removeSpan first last => exact untangled.after_removeSpan rfl

theorem Untangled.afterAll {history : List Command} (untangled : c.Untangled) :
    (c.afterAll history).Untangled := by
  induction history generalizing c with
  | nil => exact untangled
  | cons command rest ih => exact ih (untangled.after command)

/-! ### A node and itself -/

theorem commit_fails {α : Type} {check : Chain → Except ChainError α} {change : α → Chain → Chain}
    (stuck : ¬ ∃ d, commit check change c = .ok () d) :
    ∃ e, commit check change c = .error e c := by
  cases made : commit check change c with
  | ok u d => exact (stuck ⟨d, made⟩).elim
  | error e d => exact ⟨e, by rw [commit_error made]⟩

theorem join_self_fails : ∃ e, join x x c = .error e c := by
  apply commit_fails
  intro ok
  exact (join_isOk.mp ok).2.2.1 rfl

/-- A node without a place has nothing before it, and one with a place cannot be put anywhere. -/
theorem Untangled.not_before_self (untangled : c.Untangled) :
    ¬ (c.Usable x ∧ c.state? x = some .unlinked ∧ ∃ p, c.previous? x = some p) := by
  rintro ⟨-, free, p, previous⟩
  simp [(untangled.links free).1] at previous

theorem Untangled.replace_self_fails (untangled : c.Untangled) : ∃ e, replace x x c = .error e c :=
  commit_fails fun ok => untangled.not_before_self (replace_isOk.mp ok)

theorem Untangled.insertBefore_self_fails (untangled : c.Untangled) :
    ∃ e, insertBefore x x c = .error e c :=
  commit_fails fun ok => untangled.not_before_self (insertBefore_isOk.mp ok)

theorem insertAfter_self_fails (placed : c.state? x ≠ some .unlinked) :
    ∃ e, insertAfter x x c = .error e c :=
  commit_fails fun ok => placed (insertAfter_isOk.mp ok).2

theorem Untangled.insertAfter_self (untangled : c.Untangled) (free : c.state? x = some .unlinked) :
    ∃ d, insertAfter x x c = .ok () d ∧ d.next? x = some x ∧ d.previous? x = some x := by
  have usable : c.Usable x := ⟨.unlinked, free, by simp⟩
  obtain ⟨d, done⟩ := insertAfter_isOk.mpr ⟨usable, free⟩
  obtain ⟨previous, next⟩ := untangled.links free
  obtain ⟨-, -, rfl⟩ := commit_ok.mp done
  refine ⟨_, done, ?_, ?_⟩
  · show ((c.link x x).linkTo x (c.next? x)).next? x = some x
    rw [next, Chain.linkTo, next?_link usable.known (by simp [previous]), if_pos rfl]
  · show ((c.link x x).linkTo x (c.next? x)).previous? x = some x
    rw [next, Chain.linkTo, previous?_link usable.known (by simp [next]), if_pos rfl]

/-- A history is as good as one without commands on a node and itself, if those find the node
placed: they all fail. -/
theorem WellFormed.afterAll_of_placed {history : List Command} (wf : c.WellFormed)
    (placed : ∀ pre y post, history = pre ++ .insertAfter y y :: post →
      (c.afterAll pre).state? y ≠ some .unlinked) : (c.afterAll history).WellFormed := by
  induction history generalizing c with
  | nil => exact wf
  | cons command rest ih =>
    have step : (c.after command).WellFormed := by
      by_cases proper : command.Proper
      · exact wf.after proper
      · cases command with
        | insertAfter id fresh =>
          obtain rfl : id = fresh := by simpa [Command.Proper] using proper
          obtain ⟨e, failed⟩ := insertAfter_self_fails (c := c) (placed [] id rest rfl)
          have stays : c.after (.insertAfter id id) = c := by
            simp [Chain.after, Command.run, bind, EStateM.bind, failed]
          rwa [stays]
        | _ => exact (proper trivial).elim
    refine ih step fun pre y post split => ?_
    exact placed (command :: pre) y post (by rw [split]; rfl)

/-- After any history, a join, a replacement or an insertion before fails if it is given one node
twice. An insertion after fails so too, unless the node has no place yet: then it becomes its own
neighbor. There is no other way to a node that is its own neighbor. -/
theorem self_links_of_history {profile : String} {limits : Limits}
    (valid : limits.validate profile = .ok ()) {start : Chain} (starts : start.IsStart limits)
    {history : List Command} (reached : start.afterAll history = c) (x : NodeId) :
    (∃ e, join x x c = .error e c) ∧ (∃ e, replace x x c = .error e c) ∧
    (∃ e, insertBefore x x c = .error e c) ∧
    (c.state? x ≠ some .unlinked → ∃ e, insertAfter x x c = .error e c) ∧
    (c.state? x = some .unlinked →
      ∃ d, insertAfter x x c = .ok () d ∧ d.next? x = some x ∧ d.previous? x = some x) ∧
    (c.next? x = some x ∨ c.previous? x = some x → ∃ pre y post,
      history = pre ++ .insertAfter y y :: post ∧ (start.afterAll pre).state? y = some .unlinked) := by
  have fits := (Limits.nodes_lt_of_validate valid).1
  have base := starts.wellFormed (by omega)
  have untangled : c.Untangled := reached ▸ base.untangled.afterAll
  refine ⟨join_self_fails, untangled.replace_self_fails, untangled.insertBefore_self_fails,
    insertAfter_self_fails, untangled.insertAfter_self, fun loop => ?_⟩
  by_contra none
  have placed : ∀ pre y post, history = pre ++ .insertAfter y y :: post →
      (start.afterAll pre).state? y ≠ some .unlinked := by
    intro pre y post split free
    exact none ⟨pre, y, post, split, free⟩
  have wf : c.WellFormed := reached ▸ base.afterAll_of_placed placed
  rcases loop with next | previous
  · exact wf.ne_of_next? next rfl
  · exact wf.ne_of_next? ((wf.symmetric x x).mpr previous) rfl

/-- The first node of a chain, put after itself before it has a place. -/
theorem self_links_of_new_node :
    Limits.development.validate "development" = .ok () ∧ ∃ c d : Chain,
      afterAll { capacity := Limits.development.nodes } [.create (.classify .identifier ['x'])] = c ∧
      insertAfter (.ofIndex 0) (.ofIndex 0) c = .ok () d ∧
      d.next? (.ofIndex 0) = some (.ofIndex 0) ∧ d.previous? (.ofIndex 0) = some (.ofIndex 0) ∧
      d.order = [.ofIndex 0] := by
  have valid : Limits.development.validate "development" = .ok () := by decide
  have reached : afterAll { capacity := Limits.development.nodes }
      [.create (.classify .identifier ['x'])] = _ := rfl
  obtain ⟨-, -, -, -, free, -⟩ := self_links_of_history valid (.inl rfl) reached (.ofIndex 0)
  obtain ⟨d, done, next, previous⟩ := free (by decide +kernel)
  refine ⟨valid, _, d, reached, done, next, previous, ?_⟩
  have made : (match insertAfter (.ofIndex 0) (.ofIndex 0) (afterAll
      { capacity := Limits.development.nodes } [.create (.classify .identifier ['x'])]) with
    | .ok _ d => d.order
    | .error _ _ => []) = [.ofIndex 0] := by decide +kernel
  rwa [done] at made

end Chain

end Restyle
