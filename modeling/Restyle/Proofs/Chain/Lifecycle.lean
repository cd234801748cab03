import Restyle.Proofs.Chain.History
import Restyle.Proofs.Chain.Refinement

/-!
# The life of a node

`WellFormed.change` says all that one command can do to a chain: nothing, a new node, a splice or a
join. So the token of a node stays, its state moves from unlinked to linked to orphaned one step at
a time, and an orphan is out of reach for good (`lifecycle_of_history`).
-/

namespace Restyle

/-- What can become of the state of a node in one command. -/
inductive NodeState.Moves : NodeState → NodeState → Prop
  | stay (s : NodeState) : Moves s s
  | link : Moves .unlinked .linked
  | orphan : Moves .linked .orphaned

def NodeState.Leads : NodeState → NodeState → Prop := Relation.ReflTransGen NodeState.Moves

theorem NodeState.Leads.orphaned {s : NodeState} (leads : NodeState.orphaned.Leads s) :
    s = .orphaned := by
  induction leads with
  | refl => rfl
  | tail _ moves ih =>
    subst ih
    cases moves
    rfl

theorem NodeState.Leads.linked {s : NodeState} (leads : NodeState.linked.Leads s) :
    s = .linked ∨ s = .orphaned := by
  induction leads with
  | refl => exact .inl rfl
  | tail _ moves ih =>
    rcases ih with rfl | rfl
    · cases moves
      · exact .inl rfl
      · exact .inr rfl
    · cases moves
      exact .inr rfl

namespace Command

def edits : Command → Nat
  | create _ => 0
  | _ => 1

def NeedsPrevious : Command → Prop
  | replace _ _ | insertBefore _ _ | remove _ | removeSpan _ _ => True
  | create _ | join _ _ | insertAfter _ _ => False

end Command

namespace Chain
open Outcome
variable {c d : Chain} {command : Command} {a b id p x : NodeId} {mid : List NodeId}
  {after fresh : Option NodeId}

/-! ### Counting -/

@[simp] theorem state?_countEdit : c.countEdit.state? x = c.state? x := rfl

@[simp] theorem token?_countEdit : c.countEdit.token? x = c.token? x := rfl

@[simp] theorem size_countEdit : c.countEdit.size = c.size := rfl

@[simp] theorem edits_orphanStray : c.orphanStray.edits = c.edits := rfl

@[simp] theorem edits_linkTo {q : Option NodeId} : (c.linkTo a q).edits = c.edits := by
  cases q <;> simp [linkTo]

/-- A command made of a check and a change counts as one edit or leaves everything as it was. -/
theorem commit_cases {α : Type} (check : Chain → Except ChainError α) {change : α → Chain → Chain}
    (keeps : ∀ x, (change x c).edits = c.edits) :
    (∃ r d, (do commit check change; return none : Edit (Option NodeId)) c = .ok r d ∧
      d.edits = c.edits + 1) ∨
    ∃ e, (do commit check change; return none : Edit (Option NodeId)) c = .error e c := by
  simp only [bind, EStateM.bind, pure, EStateM.pure]
  cases made : commit check change c with
  | ok u d =>
    obtain ⟨x, -, rfl⟩ := commit_ok.mp made
    exact .inl ⟨none, _, rfl, congrArg (· + 1) (keeps x)⟩
  | error e d =>
    obtain rfl := commit_error made
    exact .inr ⟨e, rfl⟩

theorem removeSpan_cases (first last : NodeId) :
    (∃ r d, (do removeSpan first last; return none : Edit (Option NodeId)) c = .ok r d ∧
      d.edits = c.edits + 1) ∨
    ∃ e, (do removeSpan first last; return none : Edit (Option NodeId)) c = .error e c := by
  refine commit_cases _ fun x => ?_
  obtain ⟨p, removed⟩ := x
  refine edits_orphanAll.trans ?_
  cases c.next? last <;> simp

/-- A command that succeeds counts as one edit, and a new node as none. A command that fails leaves
everything as it was. -/
theorem run_cases (c : Chain) (command : Command) :
    (∃ r d, command.run c = .ok r d ∧ d.edits = c.edits + command.edits) ∨
      ∃ e, command.run c = .error e c := by
  cases command with
  | create token =>
    simp only [Command.run, bind, EStateM.bind, pure, EStateM.pure]
    cases created : create token c with
    | ok id d =>
      obtain ⟨-, -, rfl⟩ := create_ok.mp created
      exact .inl ⟨_, _, rfl, rfl⟩
    | error e d =>
      obtain rfl := create_error created
      exact .inr ⟨e, rfl⟩
  | join a b => exact commit_cases _ fun _ => by simp
  | replace id fresh => exact commit_cases _ fun _ => by simp
  | insertBefore id fresh => exact commit_cases _ fun _ => by simp
  | insertAfter id fresh => exact commit_cases _ fun _ => by simp
  | remove id => exact removeSpan_cases id id
  | removeSpan first last => exact removeSpan_cases first last

theorem after_of_ok {r : Option NodeId} (done : command.run c = .ok r d) : c.after command = d := by
  simp [Chain.after, done]

theorem after_of_error {e : ChainError} (failed : command.run c = .error e d) :
    c.after command = d := by
  simp [Chain.after, failed]

/-! ### One command -/

/-- All that a command can do to a chain. -/
inductive Change (c : Chain) : Command → Chain → Prop
  | nothing {command : Command} {e : ChainError} (failed : command.run c = .error e c) :
      Change c command c
  | push (token : Token) : Change c (.create token) (c.push token)
  | insert {id n : NodeId} {d : Chain} (usable : c.Usable id) (site : c.Site id [] (c.next? id) (some n))
      (spliced : Spliced c d id [] (c.next? id) (some n)) : Change c (.insertAfter id n) d
  | splice {command : Command} {d : Chain} {p : NodeId} {mid : List NodeId} {after fresh : Option NodeId}
      (named : command.NeedsPrevious) (linked : c.state? p = some .linked)
      (site : c.Site p mid after fresh) (spliced : Spliced c d p mid after fresh) : Change c command d
  | join {a b : NodeId} {d : Chain} (done : join a b c = .ok () d) : Change c (.join a b) d

theorem run_of_edit {e : Edit Unit} (done : e c = .ok () d) :
    (do e; return none : Edit (Option NodeId)) c = .ok none d := by
  simp [bind, EStateM.bind, pure, EStateM.pure, done]

theorem edit_of_run {e : Edit Unit} {r : Option NodeId}
    (done : (do e; return none : Edit (Option NodeId)) c = .ok r d) : e c = .ok () d := by
  simp only [bind, EStateM.bind, pure, EStateM.pure] at done
  cases made : e c with
  | ok u d' => simp_all
  | error error d' => simp [made] at done

theorem push_of_run {token : Token} {r : Option NodeId}
    (done : (Command.create token).run c = .ok r d) : d = c.push token := by
  simp only [Command.run, bind, EStateM.bind, pure, EStateM.pure] at done
  cases created : create token c with
  | ok id d' =>
    obtain ⟨-, -, rfl⟩ := create_ok.mp created
    simp_all
  | error error d' => simp [created] at done

theorem WellFormed.change (wf : c.WellFormed) (proper : command.Proper) :
    c.Change command (c.after command) := by
  rcases run_cases c command with ⟨r, d, done, -⟩ | ⟨e, failed⟩
  · rw [after_of_ok done]
    cases command with
    | create token =>
      rw [push_of_run done]
      exact .push token
    | join a b => exact .join (edit_of_run done)
    | replace id fresh =>
      obtain ⟨p, next, site, spliced⟩ := wf.replace_spliced (edit_of_run done)
      exact .splice trivial (wf.linked_of_next? next).1 site spliced
    | insertBefore id fresh =>
      obtain ⟨p, next, site, spliced⟩ := wf.insertBefore_spliced (edit_of_run done)
      exact .splice trivial (wf.linked_of_next? next).1 site spliced
    | insertAfter id fresh =>
      obtain ⟨usable, -⟩ := insertAfter_isOk.mp ⟨d, edit_of_run done⟩
      obtain ⟨site, spliced⟩ := wf.insertAfter_spliced proper (edit_of_run done)
      exact .insert usable site spliced
    | remove id =>
      obtain ⟨p, removed, next, -, site, spliced⟩ := wf.removeSpan_spliced (edit_of_run done)
      exact .splice trivial (wf.linked_of_next? next).1 site spliced
    | removeSpan first last =>
      obtain ⟨p, removed, next, -, site, spliced⟩ := wf.removeSpan_spliced (edit_of_run done)
      exact .splice trivial (wf.linked_of_next? next).1 site spliced
  · rw [after_of_error failed]
    exact .nothing failed

/-- What a command keeps of the nodes of a chain: their tokens stay and their states go one step at
most. Nodes that were not there have no place yet. -/
structure Ages (c d : Chain) : Prop where
  token? : ∀ id, c.Known id → d.token? id = c.token? id
  state? : ∀ id s, c.state? id = some s → ∃ s', d.state? id = some s' ∧ s.Moves s'
  fresh : ∀ id s, ¬ c.Known id → d.state? id = some s → s = .unlinked

theorem Ages.refl (c : Chain) : c.Ages c where
  token? := fun _ _ => rfl
  state? := fun _ s state => ⟨s, state, .stay s⟩
  fresh := fun _ _ unknown state => (unknown (known_of_state? state)).elim

theorem Ages.push (c : Chain) (token : Token) : c.Ages (c.push token) where
  token? := fun id known => by
    rw [token?_push, if_neg (Nat.ne_of_lt (known_iff_lt.mp known))]
  state? := fun id s state => by
    rw [state?_push, if_neg (Nat.ne_of_lt (known_iff_lt.mp (known_of_state? state)))]
    exact ⟨s, state, .stay s⟩
  fresh := fun id s unknown state => by
    rw [state?_push] at state
    split at state
    · exact (Option.some.inj state).symm
    · exact (unknown (known_of_state? state)).elim

/-- The nodes that a splice takes out come after others, so they are linked. -/
theorem Site.linked (wf : c.WellFormed) (site : c.Site p mid after fresh) (member : x ∈ mid) :
    c.state? x = some .linked := by
  obtain ⟨y, -, next⟩ := site.path.exists_step (y := x) (by simpa using member)
  exact (wf.linked_of_next? next).2

/-- A usable node is linked already, or becomes so from having no place. -/
theorem Usable.moves {s : NodeState} (usable : c.Usable id) (state : c.state? id = some s) :
    s.Moves .linked := by
  obtain ⟨t, same, alive⟩ := usable
  obtain rfl : t = s := Option.some.inj (same.symm.trans state)
  cases t with
  | unlinked => exact .link
  | linked => exact .stay _
  | orphaned => exact (alive rfl).elim

theorem Spliced.ages (wf : c.WellFormed) (site : c.Site p mid after fresh)
    (spliced : Spliced c d p mid after fresh) (usable : c.Usable p) : c.Ages d where
  token? := fun id _ => spliced.token? id
  state? := by
    intro id s state
    rw [spliced.state?]
    split
    · rename_i inside
      obtain rfl : NodeState.linked = s := Option.some.inj ((site.linked wf inside).symm.trans state)
      exact ⟨_, rfl, .orphan⟩
    · split
      · rename_i put
        refine ⟨_, rfl, ?_⟩
        rcases put with rfl | new
        · exact usable.moves state
        · exact Usable.moves ⟨_, (site.fresh id new).1, by simp⟩ state
      · exact ⟨s, state, .stay s⟩
  fresh := by
    intro id s unknown state
    have known := known_iff_lt.mp (known_of_state? state)
    rw [spliced.size] at known
    exact (unknown (known_iff_lt.mpr known)).elim

/-- Both ends of a new link are in the chain proper. -/
theorem WellFormed.mem_order_link (linked : ((c.link a b).withHead (some a)).WellFormed)
    (known : c.Known a) (partner : ∀ y, c.previous? b = some y → c.Known y) :
    a ∈ ((c.link a b).withHead (some a)).order ∧ b ∈ ((c.link a b).withHead (some a)).order := by
  have first := (linked.order_isRun head_withHead).2
  have next : ((c.link a b).withHead (some a)).next? a = some b := by
    rw [next?_withHead, next?_link known partner, if_pos rfl]
  exact ⟨first, (linked.mem_order_iff_of_next? next).mp first⟩

theorem WellFormed.join_ages (wf : c.WellFormed) (done : Chain.join a b c = .ok () d) : c.Ages d := by
  obtain ⟨usableA, usableB, linked, rfl⟩ := wf.join_ok done
  obtain ⟨first, second⟩ :=
    linked.mem_order_link usableA.known fun y previous => wf.inRange b y (.inr previous)
  refine ⟨?_, ?_, ?_⟩
  · intro id _
    simp
  · intro id s state
    rw [state?_countEdit, state?_orphanStray, state?_withHead,
      state?_link usableA.known usableB.known]
    by_cases ends : id = a ∨ id = b
    · have inside : id ∈ ((c.link a b).withHead (some a)).order := by
        rcases ends with rfl | rfl <;> assumption
      have moves : s.Moves .linked := by
        rcases ends with rfl | rfl
        · exact usableA.moves state
        · exact usableB.moves state
      rw [if_pos ends, if_neg fun stray => stray.2 inside]
      exact ⟨_, rfl, moves⟩
    · rw [if_neg ends, state]
      split
      · rename_i stray
        obtain rfl : s = .linked := Option.some.inj stray.1
        exact ⟨_, rfl, .orphan⟩
      · exact ⟨s, rfl, .stay s⟩
  · intro id s unknown state
    have known := known_iff_lt.mp (known_of_state? state)
    rw [size_countEdit, size_orphanStray, size_withHead, size_link] at known
    exact (unknown (known_iff_lt.mpr known)).elim

theorem WellFormed.after_ages (wf : c.WellFormed) (proper : command.Proper) :
    c.Ages (c.after command) := by
  generalize made : c.after command = d
  have change : c.Change command d := made ▸ wf.change proper
  cases change with
  | nothing _ => exact .refl c
  | push token => exact .push c token
  | insert usable site spliced => exact spliced.ages wf site usable
  | splice _ linked site spliced => exact spliced.ages wf site ⟨_, linked, by simp⟩
  | join done => exact wf.join_ages done

/-! ### Histories -/

structure Gone (c : Chain) (id : NodeId) : Prop where
  orphaned : c.state? id = some .orphaned
  alone : c.next? id = none ∧ c.previous? id = none
  unnamed : ∀ x, c.next? x ≠ some id ∧ c.previous? x ≠ some id
  absent : id ∉ c.order

theorem WellFormed.gone (wf : c.WellFormed) (orphaned : c.state? id = some .orphaned) : c.Gone id where
  orphaned := orphaned
  alone := wf.idle id _ orphaned (by simp)
  unnamed := by
    intro x
    refine ⟨fun next => ?_, fun previous => ?_⟩
    · simp [(wf.linked_of_next? next).2] at orphaned
    · simp [(wf.linked_of_next? ((wf.symmetric id x).mpr previous)).1] at orphaned
  absent := by
    intro member
    simp [wf.linked_of_mem_order member] at orphaned

theorem WellFormed.afterAll_keeps {history : List Command} (wf : c.WellFormed)
    (proper : ∀ command ∈ history, command.Proper) :
    (∀ id, c.Known id → (c.afterAll history).token? id = c.token? id) ∧
    ∀ id s, c.state? id = some s → ∃ s', (c.afterAll history).state? id = some s' ∧ s.Leads s' := by
  induction history generalizing c with
  | nil => exact ⟨fun _ _ => rfl, fun id s state => ⟨s, state, .refl⟩⟩
  | cons command rest ih =>
    have ages := wf.after_ages (proper command (by simp))
    obtain ⟨tokens, states⟩ := ih (wf.after (proper command (by simp))) fun other member =>
      proper other (by simp [member])
    refine ⟨?_, ?_⟩
    · intro id known
      obtain ⟨s, state⟩ := known.state?
      obtain ⟨s', state', -⟩ := ages.state? id s state
      exact (tokens id (known_of_state? state')).trans (ages.token? id known)
    · intro id s state
      obtain ⟨s₁, state₁, moves⟩ := ages.state? id s state
      obtain ⟨s', state', leads⟩ := states id s₁ state₁
      exact ⟨s', state', .head moves leads⟩

theorem afterAll_append {pre post : List Command} :
    c.afterAll (pre ++ post) = (c.afterAll pre).afterAll post := List.foldl_append

/-! ### Histories without edits -/

theorem edits_le_after : c.edits ≤ (c.after command).edits := by
  rcases run_cases c command with ⟨r, d, done, counts⟩ | ⟨e, failed⟩
  · rw [after_of_ok done]
    omega
  · rw [after_of_error failed]

theorem edits_le_afterAll {history : List Command} : c.edits ≤ (c.afterAll history).edits := by
  induction history generalizing c with
  | nil => exact Nat.le_refl _
  | cons command rest ih => exact Nat.le_trans edits_le_after ih

theorem WellFormed.render_push (wf : c.WellFormed) (token : Token) :
    (c.push token).render = c.render := by
  have texts : ∀ id ∈ c.order, (c.push token).textOf id = c.textOf id := fun id member =>
    textOf_eq_of_token? ((Ages.push c token).token? id (wf.known_of_mem_order member))
  rw [render, render, wf.order_push, textOfAll, textOfAll, List.flatMap_congr texts]

/-- A history that makes no edit creates nodes at most, and the text stays as it is. -/
theorem WellFormed.render_afterAll {history : List Command} (wf : c.WellFormed)
    (idle : (c.afterAll history).edits ≤ c.edits) :
    (c.afterAll history).WellFormed ∧ (c.afterAll history).render = c.render := by
  induction history generalizing c with
  | nil => exact ⟨wf, rfl⟩
  | cons command rest ih =>
    have later : (c.after command).edits ≤ ((c.after command).afterAll rest).edits := edits_le_afterAll
    have whole : c.afterAll (command :: rest) = (c.after command).afterAll rest := rfl
    have step : (c.after command).WellFormed ∧ (c.after command).render = c.render ∧
        (c.after command).edits = c.edits := by
      rw [whole] at idle
      rcases run_cases c command with ⟨r, d, done, counts⟩ | ⟨e, failed⟩
      · rw [after_of_ok done] at later idle ⊢
        cases command with
        | create token =>
          rw [push_of_run done]
          exact ⟨wf.push token, wf.render_push token, rfl⟩
        | _ =>
          simp only [Command.edits] at counts
          omega
      · rw [after_of_error failed]
        exact ⟨wf, rfl, rfl⟩
    obtain ⟨wf', render, edits⟩ := step
    rw [whole] at idle ⊢
    obtain ⟨wf'', same⟩ := ih wf' (edits ▸ idle)
    exact ⟨wf'', same.trans render⟩

/-! ### All of it -/

/-- Over any history the token of a node stays, its state goes from unlinked to linked to orphaned one
step at a time, and an orphan is gone for good. An edit that succeeds counts as one, and a command
that fails changes nothing. -/
theorem lifecycle_of_history {profile : String} {limits : Limits}
    (valid : limits.validate profile = .ok ()) {start : Chain} (starts : start.IsStart limits)
    {history : List Command} (proper : ∀ command ∈ history, command.Proper) :
    (∀ pre post, history = pre ++ post →
      (∀ id, (start.afterAll pre).Known id →
        (start.afterAll history).token? id = (start.afterAll pre).token? id) ∧
      (∀ id s, (start.afterAll pre).state? id = some s →
        ∃ s', (start.afterAll history).state? id = some s' ∧ s.Leads s') ∧
      ∀ id, (start.afterAll pre).state? id = some .orphaned → (start.afterAll history).Gone id) ∧
    ∀ pre command post, history = pre ++ command :: post →
      (start.afterAll pre).Ages ((start.afterAll pre).after command) ∧
      (∀ r d, command.run (start.afterAll pre) = .ok r d →
        d.edits = (start.afterAll pre).edits + command.edits) ∧
      ∀ e d, command.run (start.afterAll pre) = .error e d → d = start.afterAll pre := by
  have fits := (Limits.nodes_lt_of_validate valid).1
  have wellFormed : ∀ pre post, history = pre ++ post → (start.afterAll pre).WellFormed := by
    rintro pre post rfl
    exact (starts.wellFormed (by omega)).afterAll fun command member => proper command (by simp [member])
  refine ⟨?_, ?_⟩
  · rintro pre post rfl
    have later : ∀ command ∈ post, command.Proper :=
      fun command member => proper command (by simp [member])
    obtain ⟨tokens, states⟩ := (wellFormed pre post rfl).afterAll_keeps later
    rw [afterAll_append]
    refine ⟨tokens, states, fun id orphaned => ?_⟩
    obtain ⟨s, state, leads⟩ := states id _ orphaned
    have whole := wellFormed (pre ++ post) [] (by simp)
    rw [afterAll_append] at whole
    exact whole.gone (leads.orphaned ▸ state)
  · rintro pre command post rfl
    refine ⟨(wellFormed pre _ rfl).after_ages (proper command (by simp)), ?_, ?_⟩
    · intro r d done
      rcases run_cases (start.afterAll pre) command with ⟨r', d', done', counts⟩ | ⟨e, failed⟩
      · rw [done] at done'
        cases done'
        exact counts
      · simp [done] at failed
    · intro e d failed
      rcases run_cases (start.afterAll pre) command with ⟨r', d', done, -⟩ | ⟨e', failed'⟩
      · simp [failed] at done
      · rw [failed] at failed'
        cases failed'
        rfl

/-- The middle one of three nodes is removed, and cannot be put back. -/
theorem lifecycle_of_removed_node :
    Limits.development.validate "development" = .ok () ∧ ∃ history : List Command,
      (∀ command ∈ history, command.Proper) ∧
      (afterAll { capacity := Limits.development.nodes } history).state? (.ofIndex 1) =
        some .orphaned ∧
      (afterAll { capacity := Limits.development.nodes }
        (history ++ [.insertAfter (.ofIndex 2) (.ofIndex 1)])).Gone (.ofIndex 1) := by
  have valid : Limits.development.validate "development" = .ok () := by decide
  refine ⟨valid, [.create (.classify .identifier ['a']), .create (.classify .identifier ['b']),
    .create (.classify .identifier ['c']), .insertAfter (.ofIndex 0) (.ofIndex 1),
    .insertAfter (.ofIndex 1) (.ofIndex 2), .remove (.ofIndex 1)], by decide, by decide +kernel, ?_⟩
  exact ((lifecycle_of_history valid (.inl rfl) (by decide)).1 _ _ rfl).2.2 _ (by decide +kernel)

end Chain

end Restyle
