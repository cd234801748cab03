import Restyle.Proofs.Chain.Lifecycle

/-!
# Linked nodes off the chain proper

A node can be put after one that has no place yet. If the chain has begun elsewhere, both are linked
then and neither is in the chain proper, until a join takes them out. Nothing else brings a linked
node out of view: `in_view_of_history`.
-/

namespace Restyle
open Trail (IsPath)

namespace Command

/-- The command puts a node after one that has no place yet, in a chain that has begun elsewhere. -/
def Detaches (c : Chain) : Command → Prop
  | insertAfter id fresh =>
    c.state? id = some .unlinked ∧ c.state? fresh = some .unlinked ∧ c.head ≠ none
  | _ => False

def Reunites (c : Chain) : Command → Prop
  | join a b => ∃ d, Chain.join a b c = .ok () d
  | _ => False

theorem Reunites.not_detaches {c : Chain} {command : Command} (reunites : command.Reunites c) :
    ¬ command.Detaches c := by
  cases command <;> simp_all [Reunites, Detaches]

def placed : Command → List NodeId
  | join a b => [a, b]
  | replace _ fresh | insertBefore _ fresh => [fresh]
  | insertAfter id fresh => [id, fresh]
  | create _ | remove _ | removeSpan _ _ => []

end Command

namespace Chain
variable {c d : Chain} {command : Command} {history : List Command} {a b h id p x y : NodeId}
  {l mid : List NodeId} {after fresh : Option NodeId}

/-! ### The chain proper after one command -/

/-- A path is in the chain proper as a whole or not at all. -/
theorem WellFormed.mem_order_iff_of_path (wf : c.WellFormed) (path : IsPath c.next? (a :: l))
    (member : x ∈ a :: l) : x ∈ c.order ↔ a ∈ c.order := by
  induction l generalizing a with
  | nil => rw [List.mem_singleton.mp member]
  | cons b l ih =>
    obtain ⟨next, path⟩ := Trail.isPath_cons_cons.mp path
    rcases List.mem_cons.mp member with rfl | member
    · exact Iff.rfl
    · exact (ih path member).trans (wf.mem_order_iff_of_next? next).symm

theorem Site.order_split (wf : c.WellFormed) (site : c.Site p mid after fresh) (inside : p ∈ c.order) :
    ∃ before post, c.order = before ++ p :: mid ++ post := by
  obtain ⟨before, rest, order⟩ := List.append_of_mem inside
  obtain ⟨-, run⟩ := wf.run_of_order order
  obtain ⟨post, rfl⟩ := run.prefix_of_path site.path
  exact ⟨before, post, by simp [order]⟩

/-- A splice elsewhere leaves the chain proper as it was. -/
theorem Spliced.order_of_not_mem (wf : c.WellFormed) (site : c.Site p mid after fresh)
    (spliced : Spliced c d p mid after fresh) (head : c.head = some h) (outside : p ∉ c.order) :
    d.order = c.order := by
  obtain ⟨run, headIn⟩ := wf.order_isRun head
  have apart : ∀ x ∈ c.order, x ∉ mid ∧ x ≠ p ∧ fresh ≠ some x ∧ after ≠ some x := by
    intro x member
    have notOn : x ∉ p :: mid ++ after.toList := fun on =>
      outside ((wf.mem_order_iff_of_path site.path_after on).mp member)
    have notFresh : fresh ≠ some x := by
      intro new
      have unlinked := (site.fresh x new).1
      simp [wf.linked_of_mem_order member] at unlinked
    simp only [List.cons_append, List.mem_cons, List.mem_append, Option.mem_toList, not_or] at notOn
    exact ⟨notOn.2.1, notOn.1, notFresh, notOn.2.2⟩
  have next : ∀ x ∈ c.order, d.next? x = c.next? x := by
    intro x member
    obtain ⟨notMid, notPlace, notFresh, -⟩ := apart x member
    rw [spliced.next?, if_neg notMid, if_neg notPlace, if_neg notFresh]
  have previous : ∀ x ∈ c.order, d.previous? x = c.previous? x := by
    intro x member
    obtain ⟨notMid, -, notFresh, notAfter⟩ := apart x member
    rw [spliced.previous?, if_neg notMid, if_neg notAfter, if_neg notFresh]
  have run' : d.IsRun c.order := by
    refine ⟨run.path.congr fun x member => next x (List.dropLast_subset _ member), ?_, ?_⟩
    · intro x first
      rw [previous x (List.mem_of_mem_head? first)]
      exact run.first x first
    · intro x last
      rw [next x (List.mem_of_getLast? last)]
      exact run.last x last
  refine (spliced.wellFormed wf site).order_eq_of_run run' headIn ?_
  rw [spliced.head, head]
  simp [(apart h headIn).1]

/-! ### Strays -/

theorem WellFormed.not_connected_iff (wf : c.WellFormed) :
    ¬ c.Connected ↔ ∃ x, c.state? x = some .linked ∧ x ∉ c.order := by
  constructor
  · intro broken
    by_contra none
    push Not at none
    exact broken (wf.connected_of_subset none)
  · rintro ⟨x, linked, outside⟩ connected
    exact outside ((connected x).mp linked)

theorem WellFormed.connected_of_headless (wf : c.WellFormed) (head : c.head = none) : c.Connected :=
  wf.connected_of_subset fun id linked => (wf.headless head id linked).elim

/-- A splice in the chain proper leaves strays where they are. -/
theorem Spliced.connected_of_mem (wf : c.WellFormed) (site : c.Site p mid after fresh)
    (spliced : Spliced c d p mid after fresh) (inside : p ∈ c.order) (connected : d.Connected) :
    c.Connected := by
  by_contra broken
  obtain ⟨x, linked, outside⟩ := wf.not_connected_iff.mp broken
  obtain ⟨before, post, order⟩ := site.order_split wf inside
  have notFresh : fresh ≠ some x := by
    intro new
    simp [(site.fresh x new).1] at linked
  have notMid : x ∉ mid := fun member => outside (by simp [order, member])
  have still : d.state? x = some .linked := by
    rw [spliced.state?, if_neg notMid]
    split
    · rfl
    · exact linked
  have inside' := (connected x).mp still
  rw [spliced.order_eq wf site order] at inside'
  rw [order] at outside
  simp only [List.append_assoc, List.cons_append, List.mem_append, List.mem_cons,
    Option.mem_toList] at inside' outside
  tauto

/-- A chain that begins with a splice. -/
theorem Spliced.connected_of_headless (wf : c.WellFormed) (site : c.Site p mid after fresh)
    (spliced : Spliced c d p mid after fresh) (head : c.head = none) : d.Connected := by
  have alone : ∀ x, c.next? x = none ∧ c.previous? x = none := by
    intro x
    refine ⟨Option.eq_none_iff_forall_ne_some.mpr fun y next => ?_,
      Option.eq_none_iff_forall_ne_some.mpr fun y previous => ?_⟩
    · exact wf.headless head x (wf.linked_of_next? next).1
    · exact wf.headless head x (wf.linked_of_next? ((wf.symmetric y x).mpr previous)).2
  have noMid : mid = [] := by
    refine List.eq_nil_iff_forall_not_mem.mpr fun x member => ?_
    exact wf.headless head x (site.linked wf member)
  subst noMid
  have run : c.IsRun ([] ++ p :: [] ++ []) := ⟨by simp, by simp [alone], by simp [alone]⟩
  have wf' := spliced.wellFormed wf site
  have head' : d.head = some p := by rw [spliced.head, head]
  have order : d.order = p :: fresh.toList := by
    have run' : d.IsRun (p :: fresh.toList) := by simpa using spliced.isRun wf site run
    exact wf'.order_eq_of_run run' (by simp) head'
  refine wf'.connected_of_subset fun x linked => ?_
  rw [spliced.state?, if_neg List.not_mem_nil] at linked
  split at linked
  · rename_i put
    rw [order]
    simpa [eq_comm] using put
  · exact (wf.headless head x linked).elim

/-- A splice brings linked nodes out of view if its place is not in the chain though others are. -/
theorem Spliced.connected_iff (wf : c.WellFormed) (site : c.Site p mid after fresh)
    (spliced : Spliced c d p mid after fresh) :
    d.Connected ↔ c.Connected ∧ (c.state? p = some .linked ∨ c.head = none) := by
  cases head : c.head with
  | none => simp [spliced.connected_of_headless wf site head, wf.connected_of_headless head]
  | some h =>
    by_cases inside : p ∈ c.order
    · obtain ⟨before, post, order⟩ := site.order_split wf inside
      have linked := wf.linked_of_mem_order inside
      constructor
      · intro connected
        exact ⟨spliced.connected_of_mem wf site inside connected, .inl linked⟩
      · rintro ⟨connected, -⟩
        exact (spliced.becomes wf connected site order).connected
    · have linked : d.state? p = some .linked := by
        rw [spliced.state?, if_neg (site.not_mem wf).1, if_pos (.inl rfl)]
      have order := spliced.order_of_not_mem wf site head inside
      constructor
      · intro connected
        exact (inside (order ▸ (connected p).mp linked)).elim
      · rintro ⟨connected, linked | none⟩
        · exact (inside ((connected p).mp linked)).elim
        · simp at none

theorem WellFormed.order_orphanStray (wf : c.WellFormed) (head : c.head = some h) :
    c.orphanStray.order = c.order := by
  obtain ⟨run, inside⟩ := wf.order_isRun head
  have run' : c.orphanStray.IsRun c.order := by
    refine ⟨run.path.congr fun x member => ?_, ?_, ?_⟩
    · rw [next?_orphanStray, if_neg fun stray => stray.2 (List.dropLast_subset _ member)]
    · intro x first
      rw [previous?_orphanStray, if_neg fun stray => stray.2 (List.mem_of_mem_head? first)]
      exact run.first x first
    · intro x last
      rw [next?_orphanStray, if_neg fun stray => stray.2 (List.mem_of_getLast? last)]
      exact run.last x last
  exact (wf.orphanStray_wellFormed head).order_eq_of_run run' inside head

theorem WellFormed.orphanStray_connected (wf : c.WellFormed) (head : c.head = some h) :
    c.orphanStray.Connected := by
  refine (wf.orphanStray_wellFormed head).connected_of_subset fun x linked => ?_
  rw [wf.order_orphanStray head]
  rw [state?_orphanStray] at linked
  split at linked
  · simp at linked
  · rename_i kept
    by_contra outside
    exact kept ⟨linked, outside⟩

@[simp] theorem order_countEdit : c.countEdit.order = c.order := rfl

theorem Connected.countEdit (connected : c.Connected) : c.countEdit.Connected := connected

/-- Nothing is out of view after a join. -/
theorem WellFormed.join_connected (wf : c.WellFormed) (done : join a b c = .ok () d) :
    d.Connected := by
  obtain ⟨-, -, linked, rfl⟩ := wf.join_ok done
  exact (linked.orphanStray_connected head_withHead).countEdit

theorem WellFormed.connected_push_iff (wf : c.WellFormed) (token : Token) :
    (c.push token).Connected ↔ c.Connected := by
  refine ⟨fun connected => wf.connected_of_subset fun x linked => ?_, fun connected =>
    connected.push wf token⟩
  have old := known_iff_lt.mp (known_of_state? linked)
  rw [← wf.order_push token]
  refine (connected x).mp ?_
  rw [state?_push, if_neg (Nat.ne_of_lt old), linked]

/-- What one command does to the view of a chain. -/
theorem WellFormed.connected_after_iff (wf : c.WellFormed) (proper : command.Proper) :
    (c.after command).Connected ↔ c.Connected ∧ ¬ command.Detaches c ∨ command.Reunites c := by
  generalize made : c.after command = d
  have change : c.Change command d := made ▸ wf.change proper
  cases change with
  | nothing failed =>
    have stuck : ¬ command.Detaches c ∧ ¬ command.Reunites c := by
      cases command with
      | insertAfter anchor fresh =>
        refine ⟨?_, id⟩
        rintro ⟨free, unlinked, -⟩
        obtain ⟨d, done⟩ := insertAfter_isOk.mpr ⟨⟨_, free, by simp⟩, unlinked⟩
        simp [Command.run, run_of_edit done] at failed
      | join a b =>
        refine ⟨id, ?_⟩
        rintro ⟨d, done⟩
        simp [Command.run, run_of_edit done] at failed
      | _ => exact ⟨id, id⟩
    simp [stuck]
  | push token => simp [Command.Detaches, Command.Reunites, wf.connected_push_iff]
  | insert usable site spliced =>
    rw [spliced.connected_iff wf site]
    obtain ⟨s, state, alive⟩ := usable
    have fresh := (site.fresh _ rfl).1
    cases s <;> simp_all [Command.Detaches, Command.Reunites]
  | splice named linked site spliced =>
    rw [spliced.connected_iff wf site]
    cases command <;> simp_all [Command.Detaches, Command.Reunites, Command.NeedsPrevious]
  | join done =>
    have reunites : (Command.join _ _).Reunites c := ⟨d, done⟩
    simp [reunites, wf.join_connected done]

/-! ### Histories -/

/-- Some command of the history detaches nodes, and no join comes after it. -/
def Strands (c : Chain) (history : List Command) : Prop :=
  ∃ pre command post, history = pre ++ command :: post ∧ command.Detaches (c.afterAll pre) ∧
    ∀ mid other rest, post = mid ++ other :: rest →
      ¬ other.Reunites (c.afterAll (pre ++ command :: mid))

theorem strands_concat : c.Strands (history ++ [command]) ↔
    command.Detaches (c.afterAll history) ∨
      c.Strands history ∧ ¬ command.Reunites (c.afterAll history) := by
  constructor
  · rintro ⟨pre, first, post, split, detaches, alone⟩
    rcases List.eq_nil_or_concat post with rfl | ⟨post, last, rfl⟩
    · obtain ⟨rfl, same⟩ := List.append_inj' split rfl
      obtain rfl := List.singleton_inj.mp same
      exact .inl detaches
    · have split' : history ++ [command] = (pre ++ first :: post) ++ [last] := by simp [split]
      obtain ⟨rfl, same⟩ := List.append_inj' split' rfl
      obtain rfl := List.singleton_inj.mp same
      refine .inr ⟨⟨pre, first, post, rfl, detaches, ?_⟩, alone post command [] (by simp)⟩
      rintro mid other rest rfl
      exact alone mid other (rest ++ [command]) (by simp)
  · rintro (detaches | ⟨⟨pre, first, post, rfl, detaches, alone⟩, apart⟩)
    · exact ⟨history, command, [], rfl, detaches, by simp⟩
    · refine ⟨pre, first, post ++ [command], by simp, detaches, ?_⟩
      intro mid other rest split
      rcases List.eq_nil_or_concat rest with rfl | ⟨rest, last, rfl⟩
      · obtain ⟨rfl, same⟩ := List.append_inj' split rfl
        obtain rfl := List.singleton_inj.mp same
        exact apart
      · have split' : post ++ [command] = (mid ++ other :: rest) ++ [last] := by simp [split]
        exact alone mid other rest (List.append_inj' split' rfl).1

theorem afterAll_concat : c.afterAll (history ++ [command]) = (c.afterAll history).after command :=
  afterAll_append

theorem WellFormed.connected_afterAll_iff (wf : c.WellFormed) (connected : c.Connected)
    (proper : ∀ command ∈ history, command.Proper) :
    (c.afterAll history).Connected ↔ ¬ c.Strands history := by
  induction history using List.reverseRecOn with
  | nil =>
    refine iff_of_true connected ?_
    rintro ⟨pre, command, post, split, -⟩
    simp at split
  | append_singleton history command ih =>
    have earlier : ∀ other ∈ history, other.Proper := fun other member =>
      proper other (by simp [member])
    have step := (wf.afterAll earlier).connected_after_iff (proper command (by simp))
    rw [afterAll_concat, step, ih earlier, strands_concat]
    constructor
    · rintro (⟨safe, stays⟩ | reunites)
      · rintro (detaches | ⟨strands, -⟩)
        · exact stays detaches
        · exact safe strands
      · rintro (detaches | ⟨-, apart⟩)
        · exact reunites.not_detaches detaches
        · exact apart reunites
    · intro safe
      by_cases reunites : command.Reunites (c.afterAll history)
      · exact .inr reunites
      · exact .inl ⟨fun strands => safe (.inr ⟨strands, reunites⟩), fun detaches => safe (.inl detaches)⟩

/-! ### Every placed node -/

theorem Spliced.linked_fresh {n : NodeId} (wf : c.WellFormed) (site : c.Site p mid after (some n))
    (spliced : Spliced c d p mid after (some n)) : d.state? n = some .linked := by
  rw [spliced.state?, if_neg (site.fresh_alone wf rfl).2.2.1, if_pos (.inr rfl)]

theorem WellFormed.join_linked (wf : c.WellFormed) (done : join a b c = .ok () d) :
    d.state? a = some .linked ∧ d.state? b = some .linked := by
  have wf' := wf.join_wellFormed done
  obtain ⟨usable, -, linked, rfl⟩ := wf.join_ok done
  obtain ⟨first, second⟩ :=
    linked.mem_order_link usable.known fun y previous => wf.inRange b y (.inr previous)
  rw [← linked.order_orphanStray head_withHead, ← order_countEdit] at first second
  exact ⟨wf'.linked_of_mem_order first, wf'.linked_of_mem_order second⟩

theorem WellFormed.linked_of_placed (wf : c.WellFormed) (proper : command.Proper)
    {r : Option NodeId} (done : command.run c = .ok r d) (member : id ∈ command.placed) :
    d.state? id = some .linked := by
  cases command with
  | join a b =>
    obtain ⟨first, second⟩ := wf.join_linked (edit_of_run done)
    rcases List.mem_pair.mp member with rfl | rfl
    · exact first
    · exact second
  | replace place fresh =>
    obtain ⟨p, -, site, spliced⟩ := wf.replace_spliced (edit_of_run done)
    rw [List.mem_singleton.mp member]
    exact spliced.linked_fresh wf site
  | insertBefore place fresh =>
    obtain ⟨p, -, site, spliced⟩ := wf.insertBefore_spliced (edit_of_run done)
    rw [List.mem_singleton.mp member]
    exact spliced.linked_fresh wf site
  | insertAfter place fresh =>
    obtain ⟨site, spliced⟩ := wf.insertAfter_spliced proper (edit_of_run done)
    rcases List.mem_pair.mp member with rfl | rfl
    · rw [spliced.state?, if_neg List.not_mem_nil, if_pos (.inl rfl)]
    · exact spliced.linked_fresh wf site
  | create token => cases member
  | remove place => cases member
  | removeSpan first last => cases member

/-! ### Starts -/

theorem size_le_of_appendAll {last : Option NodeId} {tokens : List Token} (room : c.size ≤ c.capacity)
    (ok : c.appendAll last tokens = .ok d) : d.size ≤ d.capacity := by
  induction tokens generalizing c last with
  | nil =>
    obtain rfl : c = d := by simpa [appendAll] using ok
    exact room
  | cons token tokens ih =>
    rw [appendAll] at ok
    split at ok
    · simp at ok
    · rename_i id c' appended
      refine ih ?_ ok
      by_cases full : c.size < c.capacity
      · obtain ⟨id', d', same, size, capacity⟩ := append_isOk (c := c) last token full
        rw [appended] at same
        obtain ⟨-, rfl⟩ := Prod.mk.inj (Except.ok.inj same)
        omega
      · simp [Chain.append, create, full] at appended

theorem IsStart.connected {limits : Limits} (start : c.IsStart limits)
    (fits : limits.nodes ≤ 2 ^ 32) : c.Connected := by
  rcases start with rfl | ⟨tokens, ok⟩
  · exact (threaded_nil limits.nodes).connected (by simp)
  · obtain ⟨last, threaded⟩ := ofTokens_threaded fits ok
    have bound := size_le_of_appendAll (Nat.zero_le _) ok
    rw [threaded.size, threaded.capacity] at bound
    exact threaded.connected (by omega)

/-- The linked nodes are those that stand once in the chain proper, as long as no command puts a node
after one without a place while the chain has begun elsewhere, or a join follows that one. Then all
that was put in and not taken out again is rendered. -/
theorem in_view_of_history {profile : String} {limits : Limits}
    (valid : limits.validate profile = .ok ()) {start : Chain} (starts : start.IsStart limits)
    {history : List Command} (proper : ∀ command ∈ history, command.Proper) :
    ((∀ id, (start.afterAll history).state? id = some .linked ↔
        (start.afterAll history).order.count id = 1) ↔ ¬ start.Strands history) ∧
    (¬ start.Strands history → ∀ pre command post id r d, history = pre ++ command :: post →
      command.run (start.afterAll pre) = .ok r d → id ∈ command.placed →
      (start.afterAll history).state? id ≠ some .orphaned →
      ∃ left right, (start.afterAll history).render = left ++ d.textOf id ++ right) := by
  have fits := (Limits.nodes_lt_of_validate valid).1
  have base := starts.wellFormed (by omega)
  have wf := base.afterAll proper
  have inView := base.connected_afterAll_iff (starts.connected (by omega)) proper
  refine ⟨?_, ?_⟩
  · have once : ∀ id, (start.afterAll history).order.count id = 1 ↔ id ∈ (start.afterAll history).order :=
      fun id => ⟨fun one => List.count_pos_iff.mp (by omega), List.count_eq_one_of_mem wf.order_nodup⟩
    simp only [once]
    exact inView
  · rintro safe pre command post id r d rfl done member alive
    have earlier : (start.afterAll pre).WellFormed :=
      base.afterAll fun other inside => proper other (by simp [inside])
    have linked := earlier.linked_of_placed (proper command (by simp)) done member
    have wf' := earlier.after (proper command (by simp))
    have split : start.afterAll (pre ++ command :: post) = d.afterAll post := by
      rw [afterAll_append, ← after_of_ok done]
      rfl
    rw [after_of_ok done] at wf'
    rw [split] at alive inView ⊢
    have later : ∀ other ∈ post, other.Proper := fun other inside => proper other (by simp [inside])
    obtain ⟨tokens, states⟩ := wf'.afterAll_keeps later
    obtain ⟨s, state, leads⟩ := states id _ linked
    obtain rfl : s = .linked := by
      rcases leads.linked with same | rfl
      · exact same
      · exact (alive state).elim
    obtain ⟨before, behind, order⟩ := List.append_of_mem ((inView.mpr safe id).mp state)
    refine ⟨(d.afterAll post).textOfAll before, (d.afterAll post).textOfAll behind, ?_⟩
    rw [← textOf_eq_of_token? (tokens id (known_of_state? linked)), render, order]
    simp [textOfAll]

/-- A node put after another one, apart from the two that the chain has, is out of view. A join takes
both out. -/
theorem in_view_of_detached_history :
    Limits.development.validate "development" = .ok () ∧ ∃ history : List Command,
      (¬ ∀ id, (afterAll { capacity := Limits.development.nodes } (history ++
          [.insertAfter (.ofIndex 2) (.ofIndex 3)])).state? id = some .linked ↔
        (afterAll { capacity := Limits.development.nodes } (history ++
          [.insertAfter (.ofIndex 2) (.ofIndex 3)])).order.count id = 1) ∧
      ∀ id, (afterAll { capacity := Limits.development.nodes } (history ++
          [.insertAfter (.ofIndex 2) (.ofIndex 3)] ++
          [.join (.ofIndex 0) (.ofIndex 1)])).state? id = some .linked ↔
        (afterAll { capacity := Limits.development.nodes } (history ++
          [.insertAfter (.ofIndex 2) (.ofIndex 3)] ++
          [.join (.ofIndex 0) (.ofIndex 1)])).order.count id = 1 := by
  have valid : Limits.development.validate "development" = .ok () := by decide
  refine ⟨valid, [.create (.classify .identifier ['a']), .create (.classify .identifier ['b']),
    .create (.classify .identifier ['c']), .create (.classify .identifier ['d']),
    .insertAfter (.ofIndex 0) (.ofIndex 1)], ?_, ?_⟩
  · rw [(in_view_of_history valid (.inl rfl) (by decide)).1, not_not, strands_concat]
    exact .inl ⟨by decide +kernel, by decide +kernel, by decide +kernel⟩
  · rw [(in_view_of_history valid (.inl rfl) (by decide)).1, strands_concat]
    rintro (impossible | ⟨-, apart⟩)
    · exact impossible
    · refine apart (join_isOk.mpr ⟨⟨.linked, ?_, by simp⟩, ⟨.linked, ?_, by simp⟩, ?_, ?_⟩) <;>
        decide +kernel

end Chain

end Restyle
