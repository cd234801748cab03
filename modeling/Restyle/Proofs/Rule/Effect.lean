import Mathlib.Data.List.TakeWhile
import Restyle.Proofs.Chain.Refinement
import Restyle.Proofs.Class.Header
import Restyle.Rule.ConstructorDefaults

/-!
# What the edits of the rule do to the order of a chain

New tokens are put at one place of the order (`Inserted`), and a default is taken out between the
variable and the semicolon of its property (`Removed`). Neither cares about linked nodes outside of
the order, and where there are none, none come up.
-/

namespace Restyle

def Text.Indents (t : Text) : Prop := ∀ c ∈ t, isIndent c = true

theorem Text.of_mem_leading {p : Char → Bool} {ts : List Text} {c : Char}
    (member : c ∈ leading p ts) : p c = true := by
  rw [leading_eq] at member
  exact List.mem_takeWhile_imp member

namespace RuleM
variable {α β : Type} {w w' : Workspace} {a a' : α} {b : β}

theorem bind_ok {x : RuleM α} {f : α → RuleM β} :
    (x >>= f) w = .ok b w' ↔ ∃ a w₁, x w = .ok a w₁ ∧ f a w₁ = .ok b w' := Outcome.state_bind_ok

theorem pure_ok : (pure a : RuleM α) w = .ok a' w' ↔ a = a' ∧ w = w' := Outcome.state_pure_ok

theorem look_ok {query : Chain → Except ChainError α} :
    look query w = .ok a w' ↔ query w.chain = .ok a ∧ w = w' := by
  unfold look
  cases query w.chain <;> simp

theorem edit_ok {e : Edit α} :
    edit e w = .ok a w' ↔ e w.chain = .ok a w'.chain ∧ w'.journal = w.journal := by
  obtain ⟨chain, journal⟩ := w
  obtain ⟨chain', journal'⟩ := w'
  cases made : e chain with
  | ok x d => simp [edit, made, and_assoc, eq_comm]
  | error e d => simp [edit, made]

theorem note_ok {n : Log.Notice} {u : Unit} :
    note n w = .ok u w' ↔ w' = ⟨w.chain, w.journal.push n⟩ := by
  simp [note, eq_comm]

theorem forM_cons_ok {f : α → RuleM Unit} {l : List α} {u : Unit} :
    (a :: l).forM f w = .ok u w' ↔ ∃ w₁, f a w = .ok () w₁ ∧ l.forM f w₁ = .ok u w' := by
  have unfolded : (a :: l).forM f = (f a >>= fun _ => l.forM f : RuleM Unit) := rfl
  rw [unfolded, bind_ok]
  constructor
  · rintro ⟨⟨⟩, w₁, first, rest⟩
    exact ⟨w₁, first, rest⟩
  · rintro ⟨w₁, first, rest⟩
    exact ⟨(), w₁, first, rest⟩

theorem forM_nil_ok {f : α → RuleM Unit} {u : Unit} :
    ([] : List α).forM f w = .ok u w' ↔ w = w' := by
  have unfolded : ([] : List α).forM f = (pure () : RuleM Unit) := rfl
  rw [unfolded, pure_ok]
  simp

def after? (x : RuleM Unit) (w : Workspace) : Option Workspace :=
  match x w with
  | .ok _ w' => some w'
  | .error .. => none

theorem after?_some {x : RuleM Unit} : after? x w = some w' ↔ x w = .ok () w' := by
  unfold after?
  cases x w <;> simp

end RuleM

namespace Chain
variable {c d e : Chain} {left right ids ids' : List NodeId} {tokens tokens' : List Token}
  {anchor id n first last : NodeId}

/-- A well-formed chain in which names for new nodes are new. -/
structure Roomy (c : Chain) : Prop where
  wellFormed : c.WellFormed
  capacity : c.capacity ≤ 2 ^ 32

/-- What all chains of a source share. -/
structure Sound (c : Chain) : Prop extends Roomy c where
  connected : c.Connected

/-- New nodes `ids` with the given tokens stand between `left` and `right`. -/
structure Inserted (c d : Chain) (left : List NodeId) (tokens : List Token) (right ids : List NodeId) :
    Prop where
  roomy : d.Roomy
  connected : c.Connected → d.Connected
  before : c.order = left ++ right
  order : d.order = left ++ (ids ++ right)
  old : ∀ id, c.Known id → d.token? id = c.token? id
  fresh : ∀ id ∈ ids, ¬ c.Known id
  tokens : ids.map d.token? = tokens.map some
  orphans : ∀ id, c.state? id = some .orphaned → d.state? id = some .orphaned
  edits : c.edits ≤ d.edits

theorem Inserted.sound (inserted : Inserted c d left tokens right ids) (sound : c.Sound) : d.Sound :=
  ⟨inserted.roomy, inserted.connected sound.connected⟩

theorem Inserted.nil (roomy : c.Roomy) (order : c.order = left ++ right) :
    Inserted c c left [] right [] :=
  ⟨roomy, id, order, by simpa using order, fun _ _ => rfl, by simp, rfl, fun _ out => out,
    Nat.le_refl _⟩

theorem Inserted.known (inserted : Inserted c d left tokens right ids) (known : c.Known id) :
    d.Known id := by
  obtain ⟨t, token⟩ := known_iff_token?.mp known
  exact known_iff_token?.mpr ⟨t, (inserted.old id known).trans token⟩

theorem Inserted.known_ids (inserted : Inserted c d left tokens right ids) (member : id ∈ ids) :
    d.Known id := by
  have inside : d.token? id ∈ tokens.map some := inserted.tokens ▸ List.mem_map_of_mem member
  obtain ⟨t, -, token⟩ := List.mem_map.mp inside
  exact known_iff_token?.mpr ⟨t, token.symm⟩

/-- Nodes of the order keep their tokens. -/
theorem Inserted.same (inserted : Inserted c d left tokens right ids) (wf : c.WellFormed)
    (member : id ∈ c.order) : d.token? id = c.token? id :=
  inserted.old id (wf.known_of_mem_order member)

/-- Nodes put right after nodes that were put in. -/
theorem Inserted.trans (first : Inserted c d left tokens right ids)
    (second : Inserted d e (left ++ ids) tokens' right ids') :
    Inserted c e left (tokens ++ tokens') right (ids ++ ids') where
  roomy := second.roomy
  connected := fun connected => second.connected (first.connected connected)
  before := first.before
  order := by simpa using second.order
  old := fun id known => (second.old id (first.known known)).trans (first.old id known)
  fresh := by
    intro id member known
    rcases List.mem_append.mp member with inside | inside
    · exact first.fresh id inside known
    · exact second.fresh id inside (first.known known)
  tokens := by
    have kept : ids.map e.token? = ids.map d.token? :=
      List.map_congr_left fun id member => second.old id (first.known_ids member)
    rw [List.map_append, List.map_append, kept, first.tokens, second.tokens]
  orphans := fun id out => second.orphans id (first.orphans id out)
  edits := Nat.le_trans first.edits second.edits

/-- Nodes put right before nodes that were put in. -/
theorem Inserted.trans_before (first : Inserted c d left tokens right ids)
    (second : Inserted d e left tokens' (ids ++ right) ids') :
    Inserted c e left (tokens' ++ tokens) right (ids' ++ ids) where
  roomy := second.roomy
  connected := fun connected => second.connected (first.connected connected)
  before := first.before
  order := by simpa using second.order
  old := fun id known => (second.old id (first.known known)).trans (first.old id known)
  fresh := by
    intro id member known
    rcases List.mem_append.mp member with inside | inside
    · exact second.fresh id inside (first.known known)
    · exact first.fresh id inside known
  tokens := by
    have kept : ids.map e.token? = ids.map d.token? :=
      List.map_congr_left fun id member => second.old id (first.known_ids member)
    rw [List.map_append, List.map_append, kept, first.tokens, second.tokens]
  orphans := fun id out => second.orphans id (first.orphans id out)
  edits := Nat.le_trans first.edits second.edits

/-! ### The tokens of nodes -/

def tokensOf (c : Chain) (ids : List NodeId) : List Token := ids.filterMap c.token?

@[simp] theorem tokensOf_append : c.tokensOf (ids ++ ids') = c.tokensOf ids ++ c.tokensOf ids' :=
  List.filterMap_append

theorem tokensOf_cons {t : Token} (token : c.token? id = some t) :
    c.tokensOf (id :: ids) = t :: c.tokensOf ids :=
  List.filterMap_cons_some token

theorem tokensOf_congr (same : ∀ id ∈ ids, d.token? id = c.token? id) :
    d.tokensOf ids = c.tokensOf ids :=
  List.filterMap_congr same

theorem tokensOf_eq (same : ids.map c.token? = tokens.map some) : c.tokensOf ids = tokens := by
  have found : c.tokensOf ids = (ids.map c.token?).filterMap id := by
    rw [List.filterMap_map, Function.id_comp]
    rfl
  rw [found, same, List.filterMap_map, Function.id_comp]
  exact List.filterMap_some

theorem Inserted.tokensOf_order (inserted : Inserted c d left tokens right ids) (sound : c.Sound) :
    d.tokensOf d.order = c.tokensOf left ++ (tokens ++ c.tokensOf right) := by
  have old : ∀ x ∈ left ++ right, d.token? x = c.token? x := by
    intro x member
    rw [← inserted.before] at member
    exact inserted.old x (sound.wellFormed.known_of_mem_order member)
  rw [inserted.order, tokensOf_append, tokensOf_append, tokensOf_eq inserted.tokens,
    tokensOf_congr fun x member => old x (List.mem_append_left _ member),
    tokensOf_congr fun x member => old x (List.mem_append_right _ member)]

/-! ### Single edits -/

theorem capacity_insertBefore {u : Unit} (done : insertBefore anchor n c = .ok u d) :
    d.capacity = c.capacity ∧ d.edits = c.edits + 1 := by
  obtain ⟨p, -, rfl⟩ := commit_ok.mp done
  simp [countEdit]

theorem capacity_insertAfter {u : Unit} (done : insertAfter anchor n c = .ok u d) :
    d.capacity = c.capacity ∧ d.edits = c.edits + 1 := by
  obtain ⟨p, -, rfl⟩ := commit_ok.mp done
  cases c.next? anchor <;> simp [countEdit, linkTo]

theorem capacity_removeSpan {u : Unit} (done : removeSpan first last c = .ok u d) :
    d.capacity = c.capacity ∧ d.edits = c.edits + 1 := by
  obtain ⟨⟨p, removed⟩, -, rfl⟩ := commit_ok.mp done
  cases c.next? last with
  | none => exact ⟨capacity_orphanAll, congrArg (· + 1) edits_orphanAll⟩
  | some after =>
    exact ⟨capacity_orphanAll.trans capacity_link,
      congrArg (· + 1) (edits_orphanAll.trans edits_link)⟩

theorem Sound.push (sound : c.Sound) (token : Token) : (c.push token).Sound :=
  ⟨⟨sound.wellFormed.push token, sound.capacity⟩, sound.connected.push sound.wellFormed token⟩

theorem fresh_ofIndex (roomy : c.Roomy) (room : c.size < c.capacity) :
    ¬ c.Known (.ofIndex c.size) := by
  rw [known_iff_lt, NodeId.index_ofIndex (Nat.lt_of_lt_of_le room roomy.capacity)]
  exact Nat.lt_irrefl _

theorem state?_push_new (roomy : c.Roomy) (room : c.size < c.capacity) (token : Token) :
    (c.push token).state? (.ofIndex c.size) = some .unlinked := by
  rw [state?_push, if_pos (NodeId.index_ofIndex (Nat.lt_of_lt_of_le room roomy.capacity))]

theorem token?_push_new (roomy : c.Roomy) (room : c.size < c.capacity) (token : Token) :
    (c.push token).token? (.ofIndex c.size) = some token := by
  rw [token?_push, if_pos (NodeId.index_ofIndex (Nat.lt_of_lt_of_le room roomy.capacity))]

theorem state?_push_old {token : Token} (known : c.Known id) :
    (c.push token).state? id = c.state? id := by
  rw [state?_push, if_neg (Nat.ne_of_lt (known_iff_lt.mp known))]

/-- A splice at a linked node leaves orphans what they are. -/
theorem Spliced.orphaned {p : NodeId} {mid : List NodeId} {after fresh : Option NodeId}
    (spliced : c.Spliced d p mid after fresh) (site : c.Site p mid after fresh)
    (linked : c.state? p = some .linked) (out : c.state? id = some .orphaned) :
    d.state? id = some .orphaned := by
  rw [spliced.state?]
  split
  · rfl
  · split
    · rename_i changed
      rcases changed with rfl | new
      · simp [linked] at out
      · simp [(site.fresh id new).1] at out
    · exact out

theorem token?_push_old {token : Token} (known : c.Known id) :
    (c.push token).token? id = c.token? id := by
  rw [token?_push, if_neg (Nat.ne_of_lt (known_iff_lt.mp known))]

theorem indents_of_indentAt {text : Text} (ok : c.indentAt id = .ok text) : text.Indents := by
  obtain ⟨link, -, ok⟩ := Outcome.bind_ok.mp ok
  cases link with
  | none =>
    obtain rfl := Outcome.pure_ok.mp ok
    intro x member
    cases member
  | some before =>
    obtain ⟨-, ok⟩ := Outcome.check_ok.mp ok
    obtain rfl := Outcome.pure_ok.mp ok
    exact fun x => Text.of_mem_leading

end Chain

namespace ConstructorDefaults
open RuleM
open Chain (Inserted)
variable {w w' : Workspace} {left right : List NodeId} {anchor : NodeId} {t : Token}
  {tokens : List Token}

/-! ### New tokens -/

/-- A new node put behind another by one edit. -/
theorem inserted_of_spliced {c d : Chain} {p : NodeId} {after : Option NodeId} (roomy : c.Roomy)
    (room : c.size < c.capacity) (before : c.order = left ++ p :: right)
    (site : (c.push t).Site p [] after (some (.ofIndex c.size)))
    (spliced : (c.push t).Spliced d p [] after (some (.ofIndex c.size)))
    (counts : d.capacity = (c.push t).capacity ∧ d.edits = (c.push t).edits + 1) :
    Inserted c d (left ++ [p]) [t] right [.ofIndex c.size] := by
  have wf := roomy.wellFormed.push t
  have place : (c.push t).order = left ++ p :: [] ++ right := by
    simpa using (roomy.wellFormed.order_push t).trans before
  have linked : (c.push t).state? p = some .linked := wf.linked_of_mem_order (by simp [place])
  refine ⟨⟨spliced.wellFormed wf site, counts.1 ▸ roomy.capacity⟩, fun connected => ?_,
    by simpa using before, by simpa using spliced.order_eq wf site place, fun id known => ?_,
    fun id member => ?_, ?_, fun id out => ?_, by simp [counts.2]⟩
  · exact (spliced.becomes wf (connected.push roomy.wellFormed t) site place).connected
  · exact (spliced.token? id).trans (Chain.token?_push_old known)
  · rw [List.mem_singleton.mp member]
    exact Chain.fresh_ofIndex roomy room
  · simp [spliced.token?, Chain.token?_push_new roomy room]
  · refine spliced.orphaned site linked ?_
    rw [Chain.state?_push_old (Chain.known_of_state? out)]
    exact out

theorem insertBefore_ok {id : NodeId} {w₁ : Workspace} (roomy : w.chain.Roomy)
    (order : w.chain.order = left ++ anchor :: right) (created : edit (Chain.create t) w = .ok id w₁)
    (inserted : edit (Chain.insertBefore anchor id) w₁ = .ok () w') :
    Inserted w.chain w'.chain left [t] (anchor :: right) [id] := by
  obtain ⟨room, rfl, pushed⟩ := Chain.create_ok.mp (edit_ok.mp created).1
  have done := (edit_ok.mp inserted).1
  rw [pushed] at done
  have wf := roomy.wellFormed.push t
  obtain ⟨p, next, site, spliced⟩ := wf.insertBefore_spliced done
  obtain ⟨front, rfl⟩ :=
    wf.order_split_of_next? ((roomy.wellFormed.order_push t).trans order) next
  exact inserted_of_spliced roomy room (by simpa using order) site spliced
    (Chain.capacity_insertBefore done)

theorem putAllBefore_ok {u : Unit} (roomy : w.chain.Roomy)
    (order : w.chain.order = left ++ anchor :: right)
    (ok : putAllBefore anchor tokens w = .ok u w') :
    ∃ ids, Inserted w.chain w'.chain left tokens (anchor :: right) ids := by
  induction tokens generalizing w left with
  | nil =>
    obtain rfl := forM_nil_ok.mp ok
    exact ⟨[], .nil roomy order⟩
  | cons t tokens ih =>
    obtain ⟨w₁, first, rest⟩ := forM_cons_ok.mp ok
    obtain ⟨id, w₀, created, links⟩ := bind_ok.mp first
    have inserted := insertBefore_ok roomy order created links
    have order₁ : w₁.chain.order = (left ++ [id]) ++ anchor :: right := by simpa using inserted.order
    obtain ⟨ids, more⟩ := ih inserted.roomy order₁ rest
    exact ⟨id :: ids, inserted.trans more⟩

theorem putAllAfter_ok {u : Unit} (roomy : w.chain.Roomy)
    (order : w.chain.order = left ++ anchor :: right)
    (ok : putAllAfter anchor tokens w = .ok u w') :
    ∃ ids, Inserted w.chain w'.chain (left ++ [anchor]) tokens right ids := by
  induction tokens generalizing w left anchor with
  | nil =>
    obtain ⟨-, rfl⟩ := pure_ok.mp ok
    exact ⟨[], .nil roomy (by simpa using order)⟩
  | cons t tokens ih =>
    obtain ⟨id, w₁, created, rest⟩ := bind_ok.mp ok
    obtain ⟨⟨⟩, w₂, after, rest⟩ := bind_ok.mp rest
    obtain ⟨room, rfl, pushed⟩ := Chain.create_ok.mp (edit_ok.mp created).1
    have done := (edit_ok.mp after).1
    rw [pushed] at done
    have different : anchor ≠ .ofIndex w.chain.size := by
      rintro rfl
      exact Chain.fresh_ofIndex roomy room (roomy.wellFormed.known_of_mem_order (by simp [order]))
    obtain ⟨site, spliced⟩ := (roomy.wellFormed.push t).insertAfter_spliced different done
    have inserted := inserted_of_spliced roomy room order site spliced (Chain.capacity_insertAfter done)
    have order₂ : w₂.chain.order = (left ++ [anchor]) ++ .ofIndex w.chain.size :: right := by
      simpa using inserted.order
    obtain ⟨ids, more⟩ := ih inserted.roomy order₂ rest
    exact ⟨.ofIndex w.chain.size :: ids, inserted.trans more⟩

/-! ### Taking a default out -/

/-- The nodes `mid` between `left` and `right` are taken out. -/
structure Removed (c d : Chain) (left mid right : List NodeId) : Prop where
  roomy : d.Roomy
  connected : c.Connected → d.Connected
  before : c.order = left ++ (mid ++ right)
  order : d.order = left ++ right
  tokens : ∀ id, d.token? id = c.token? id
  orphaned : ∀ id ∈ mid, d.state? id = some .orphaned
  orphans : ∀ id, c.state? id = some .orphaned → d.state? id = some .orphaned
  edits : d.edits = c.edits + 1

theorem Removed.sound {c d : Chain} {left mid right : List NodeId} (removed : Removed c d left mid right)
    (sound : c.Sound) : d.Sound :=
  ⟨removed.roomy, removed.connected sound.connected⟩

/-- A variable that is linked has to be in the order, which it is in a chain without stray nodes. -/
theorem dropDefault_ok {d : ClassDecl} {p : Property} {u : Unit} (roomy : w.chain.Roomy)
    (inside : w.chain.state? p.variableId = some .linked → p.variableId ∈ w.chain.order)
    (ok : dropDefault d p w = .ok u w') :
    ∃ left mid right, mid ≠ [] ∧
      Removed w.chain w'.chain (left ++ [p.variableId]) mid (p.terminator :: right) := by
  obtain ⟨first, w₁, found, ok⟩ := bind_ok.mp ok
  obtain ⟨last, w₂, found', ok⟩ := bind_ok.mp ok
  obtain ⟨⟨⟩, w₃, removes, noted⟩ := bind_ok.mp ok
  obtain ⟨next, rfl⟩ := look_ok.mp found
  obtain ⟨previous, rfl⟩ := look_ok.mp found'
  obtain rfl := note_ok.mp noted
  have done := (edit_ok.mp removes).1
  have wf := roomy.wellFormed
  rw [Chain.next_ok] at next
  rw [Chain.previous_ok] at previous
  have member := inside (wf.linked_of_next? next).1
  obtain ⟨left, rest, order⟩ := List.append_of_mem member
  obtain ⟨-, run⟩ := wf.run_of_order order
  have starts : rest.head? = some first := run.next?_of_append.symm.trans next
  obtain ⟨rest, rfl⟩ := List.head?_eq_some_iff.mp starts
  obtain ⟨q, removed, next', span, site, spliced⟩ := wf.removeSpan_spliced done
  obtain rfl : q = p.variableId := by
    have back := (wf.symmetric _ _).mp next'
    rw [(wf.symmetric _ _).mp next] at back
    exact (Option.some.inj back).symm
  obtain ⟨-, -, path, head, final⟩ := wf.span_ok.mp span
  obtain ⟨removed, rfl⟩ := List.head?_eq_some_iff.mp head
  -- The removed nodes come right after the variable, and the semicolon right after them.
  have shifted : w.chain.IsRun ((left ++ [p.variableId]) ++ first :: rest) := by simpa using run
  obtain ⟨post, rfl⟩ := shifted.prefix_of_path path
  obtain ⟨init, same⟩ := List.getLast?_eq_some_iff.mp final
  have run' : w.chain.IsRun ((left ++ p.variableId :: init) ++ last :: post) := by
    have split : left ++ p.variableId :: first :: (removed ++ post) =
        left ++ p.variableId :: ((first :: removed) ++ post) := rfl
    rw [split, same] at run
    simpa using run
  have after := run'.next?_of_append.symm.trans ((wf.symmetric _ _).mpr previous)
  obtain ⟨right, rfl⟩ := List.head?_eq_some_iff.mp after
  have place : w.chain.order =
      left ++ p.variableId :: (first :: removed) ++ p.terminator :: right := by simpa using order
  have counts := Chain.capacity_removeSpan done
  refine ⟨left, first :: removed, right, by simp, ⟨spliced.wellFormed wf site,
    counts.1 ▸ roomy.capacity⟩, fun connected => (spliced.becomes wf connected site place).connected,
    by simpa using place, by simpa using spliced.order_eq wf site place, spliced.token?,
    fun id inside => ?_, fun id => spliced.orphaned site (wf.linked_of_mem_order member), counts.2⟩
  rw [spliced.state?, if_pos inside]

/-! ### Indents -/

theorem indents_indentStep {propertyIndent braceIndent : Text} (indents : propertyIndent.Indents) :
    (indentStep propertyIndent braceIndent).Indents := by
  have unit : defaultUnit.Indents :=
    List.all_eq_true.mp (show defaultUnit.all Text.isIndent = true from rfl)
  unfold indentStep
  split
  · rename_i rest stripped
    split
    · exact unit
    · intro x member
      unfold Text.strip? at stripped
      split at stripped
      · rw [← Option.some.inj stripped] at member
        exact indents x (List.mem_of_mem_drop member)
      · cases stripped
  · exact unit

theorem indents_append {s t : Text} (first : s.Indents) (second : t.Indents) : (s ++ t).Indents :=
  fun x member => (List.mem_append.mp member).elim (first x) (second x)

theorem indents_statementIndent {c : Chain} {start : NodeId} {body : Group} {unit text : Text}
    (indents : unit.Indents) (ok : statementIndent c start body unit = .ok text) : text.Indents := by
  have outer : (do return (← c.indentAt start) ++ unit : Except ChainError Text) = .ok text →
      text.Indents := by
    intro ok
    obtain ⟨head, found, ok⟩ := Outcome.bind_ok.mp ok
    obtain rfl := Outcome.pure_ok.mp ok
    exact indents_append (Chain.indents_of_indentAt found) indents
  obtain ⟨first, -, ok⟩ := Outcome.bind_ok.mp ok
  split at ok
  · obtain ⟨breaks, -, ok⟩ := Outcome.bind_ok.mp ok
    split at ok
    · exact Chain.indents_of_indentAt ok
    · exact outer ok
  · exact outer ok

/-! ### Statements and constructors -/

theorem closingLine_ok {body : Group} {indent : Text} (roomy : w.chain.Roomy)
    (order : w.chain.order = left ++ body.closer :: right)
    (ok : closingLine body indent w = .ok anchor w') :
    (∃ init, left = init ++ [anchor] ∧ w = w' ∧ w.chain.isWhitespace anchor = true) ∨
      Inserted w.chain w'.chain left [newLine indent] (body.closer :: right) [anchor] := by
  obtain ⟨before, w₁, found, ok⟩ := bind_ok.mp ok
  obtain ⟨previous, rfl⟩ := look_ok.mp found
  obtain ⟨token, w₂, read, ok⟩ := bind_ok.mp ok
  obtain ⟨tokenOf, rfl⟩ := look_ok.mp read
  split at ok
  · rename_i blank
    obtain ⟨rfl, rfl⟩ := pure_ok.mp ok
    obtain ⟨-, run⟩ := roomy.wellFormed.run_of_order order
    have last := (run.previous?_of_append roomy.wellFormed).symm.trans (Chain.previous_ok.mp previous)
    obtain ⟨init, rfl⟩ := List.getLast?_eq_some_iff.mp last
    refine .inl ⟨init, rfl, rfl, ?_⟩
    rw [Chain.isWhitespace, Chain.tokenIs_of_token? (Chain.token_ok.mp tokenOf)]
    exact (Bool.and_eq_true_iff.mp blank).1
  · obtain ⟨id, w₁, created, ok⟩ := bind_ok.mp ok
    obtain ⟨⟨⟩, w₂, inserted, ok⟩ := bind_ok.mp ok
    obtain ⟨rfl, rfl⟩ := pure_ok.mp ok
    exact .inr (insertBefore_ok roomy order created inserted)

/-- Statements are put before the whitespace at the end of a body. -/
theorem addStatements_ok {start : NodeId} {body : Group} {indent : Text}
    {statements : List (List Token)} {u : Unit} (roomy : w.chain.Roomy)
    (order : w.chain.order = left ++ body.closer :: right)
    (ok : addStatements start body indent statements w = .ok u w') :
    ∃ init spaces line ids, left = init ++ spaces ∧
      (∀ x ∈ spaces, w.chain.isWhitespace x = true) ∧ (line = [] ∨ ∃ text, text.Indents ∧ line = [newLine text]) ∧
      spaces.length + line.length = 1 ∧
      Inserted w.chain w'.chain init (block indent statements ++ line)
        (spaces ++ body.closer :: right) ids := by
  obtain ⟨headIndent, w₁, found, ok⟩ := bind_ok.mp ok
  obtain ⟨indentAt, rfl⟩ := look_ok.mp found
  obtain ⟨anchor, w₁, line, ok⟩ := bind_ok.mp ok
  rcases closingLine_ok roomy order line with ⟨init, rfl, rfl, blank⟩ | inserted
  · have place : w.chain.order = init ++ anchor :: (body.closer :: right) := by simpa using order
    obtain ⟨ids, more⟩ := putAllBefore_ok roomy place ok
    exact ⟨init, [anchor], [], ids, rfl, by simpa using blank, .inl rfl, rfl, by simpa using more⟩
  · obtain ⟨ids, more⟩ := putAllBefore_ok inserted.roomy inserted.order ok
    exact ⟨left, [], [newLine headIndent], ids ++ [anchor], by simp, by simp,
      .inr ⟨_, Chain.indents_of_indentAt indentAt, rfl⟩, rfl, inserted.trans_before more⟩

def staysOnLine (t : Token) : Bool := !t.hasLineFeed && !t.isSignificant

/-- The nodes `fillers` stay on a line and end with its last comment, and `rest` comes after them. -/
structure TrailsLine (c : Chain) (fillers rest : List NodeId) : Prop where
  quiet : ∀ x ∈ fillers, c.tokenIs staysOnLine x = true
  ends : ∀ x ∈ fillers.getLast?, c.tokenIs Token.isComment x = true
  last : ∀ x ∈ rest.takeWhile (c.tokenIs staysOnLine), c.tokenIs Token.isComment x = false

theorem TrailsLine.plain {c : Chain} {fillers rest : List NodeId} (trails : TrailsLine c fillers rest) :
    ∀ x ∈ fillers, c.tokenIs Token.isSignificant x = false := by
  intro x member
  obtain ⟨t, token, stays⟩ := Chain.tokenIs_iff.mp (trails.quiet x member)
  rw [Chain.tokenIs_of_token? token]
  simpa using (Bool.and_eq_true_iff.mp stays).2

/-- The walk along a line goes on as long as nodes stay on it. -/
theorem exists_line {c : Chain} {id : NodeId} (wf : c.WellFormed) (order : c.order = left ++ id :: right) :
    ∃ l rest, right = l ++ rest ∧ (∀ x ∈ l, c.tokenIs staysOnLine x = true) ∧
      (∀ x ∈ rest.head?, c.tokenIs staysOnLine x = false) ∧
      lineTail c id = ((id :: l).reverse.find? (c.tokenIs Token.isComment)).getD id := by
  obtain ⟨l, walk, list⟩ := Trail.walk_isWalk (fun n => (c.next? n).filter (c.tokenIs staysOnLine))
    (fun _ => false) c.size id
  have path : Trail.IsPath c.next? (id :: l) := List.IsChain.imp
    (fun x y step => (Option.filter_eq_some_iff.mp step).1) walk.path
  obtain ⟨known, run⟩ := wf.run_of_order order
  obtain ⟨rest, rfl⟩ := run.prefix_of_path path
  refine ⟨l, rest, rfl, fun x inside => ?_, fun x next => ?_, ?_⟩
  · obtain ⟨y, -, step⟩ := walk.path.exists_step (y := x) inside
    exact (Option.filter_eq_some_iff.mp step).2
  · rcases walk.final with long | stop | stuck
    · -- No path has more nodes than the table.
      have bound := wf.path_length_le path List.mem_cons_self known
      rw [List.length_cons] at bound
      omega
    · cases stop
    · obtain ⟨init, final, same⟩ := (List.eq_nil_or_concat' (id :: l)).resolve_left (by simp)
      have place : left ++ id :: (l ++ rest) = (left ++ init) ++ final :: rest := by
        rw [← List.cons_append, same]
        simp
      rw [place] at run
      simp only [same, List.getLast_append_singleton, Option.filter_eq_none_iff] at stuck
      simpa using stuck x (run.next?_of_append.trans next)
  · have visited : (Trail.walk (fun n => (c.next? n).filter (c.tokenIs staysOnLine)) (fun _ => false)
        c.size id).last :: (Trail.walk (fun n => (c.next? n).filter (c.tokenIs staysOnLine))
        (fun _ => false) c.size id).passed = (id :: l).reverse := by
      rw [← list, Trail.toList, List.reverse_reverse]
    rw [← visited]
    rfl

/-- A line has its tail at the last of its comments. -/
theorem lineTail_eq {c : Chain} {id : NodeId} (wf : c.WellFormed) (order : c.order = left ++ id :: right)
    (plain : c.tokenIs Token.isComment id = false) :
    ∃ fillers rest, right = fillers ++ rest ∧ TrailsLine c fillers rest ∧
      (id :: fillers).getLast? = some (lineTail c id) := by
  obtain ⟨l, rest, rfl, quiet, stops, tail⟩ := exists_line wf order
  have line : ∀ m, (∀ x ∈ m, x ∈ l) → (m ++ rest).takeWhile (c.tokenIs staysOnLine) = m := by
    intro m within
    rw [List.takeWhile_append_of_pos fun x member => quiet x (within x member)]
    cases rest with
    | nil => simp
    | cons x rest => rw [List.takeWhile_cons_of_neg (by simp [stops x rfl]), List.append_nil]
  cases found : (id :: l).reverse.find? (c.tokenIs Token.isComment) with
  | none =>
    rw [tail, found]
    refine ⟨[], l ++ rest, rfl, ⟨by simp, by simp, fun x member => ?_⟩, rfl⟩
    rw [line l fun _ inside => inside] at member
    have none := List.find?_eq_none.mp found x (by simp [member])
    simpa using none
  | some y =>
    obtain ⟨comment, after, before, same, none⟩ := List.find?_eq_some_iff_append.mp found
    have split : id :: l = before.reverse ++ y :: after.reverse := by
      rw [← List.reverse_reverse (id :: l), same]
      simp
    rw [tail, found]
    cases front : before.reverse with
    | nil =>
      rw [front] at split
      rw [(List.cons.inj split).1, comment] at plain
      cases plain
    | cons first init =>
      rw [front] at split
      obtain ⟨rfl, rfl⟩ := List.cons.inj split
      refine ⟨init ++ [y], after.reverse ++ rest, by simp, ⟨fun x member => quiet x ?_, ?_,
        fun x member => ?_⟩, by rw [← List.cons_append, List.getLast?_concat]; rfl⟩
      · simp only [List.append_eq, List.mem_append, List.mem_cons, List.not_mem_nil, or_false] at member ⊢
        tauto
      · intro x last
        rw [List.getLast?_concat] at last
        rwa [← Option.some.inj last]
      · rw [line after.reverse fun x inside => by
          simp only [List.append_eq, List.mem_append, List.mem_cons]
          tauto] at member
        have plain := none x (List.mem_reverse.mp member)
        simpa using plain

theorem not_comment_of_semicolon {c : Chain} {id : NodeId}
    (semicolon : c.tokenIs (·.isPunctuation ';') id = true) : c.tokenIs Token.isComment id = false := by
  obtain ⟨t, token, mark⟩ := Chain.tokenIs_iff.mp semicolon
  simp only [Token.isPunctuation, Bool.and_eq_true, beq_iff_eq] at mark
  simp [Chain.tokenIs_of_token? token, Token.isComment, mark.1]

/-- The separator starts a line of its own or is the whitespace that follows. -/
theorem separator_cases {c : Chain} {id : NodeId} {propertyIndent : Text} (wf : c.WellFormed)
    (order : c.order = left ++ id :: right) :
    separator c id propertyIndent = '\n' :: '\n' :: propertyIndent ∨
      ∃ next rest, right = next :: rest ∧ c.isWhitespace next = true ∧
        separator c id propertyIndent = c.textOf next := by
  unfold separator
  dsimp only
  split
  · rename_i next found
    obtain ⟨step, is⟩ := Option.filter_eq_some_iff.mp found
    obtain ⟨-, run⟩ := wf.run_of_order order
    obtain ⟨rest, rfl⟩ := List.head?_eq_some_iff.mp (run.next?_of_append.symm.trans step)
    obtain ⟨t, token, blank⟩ := Chain.tokenIs_iff.mp is
    refine .inr ⟨next, rest, rfl, ?_, rfl⟩
    rw [Chain.isWhitespace, Chain.tokenIs_of_token? token]
    simp only [Bool.and_eq_true] at blank
    exact blank.1.1
  · exact .inl rfl

/-- A constructor is put after a semicolon and the comments on its line. -/
theorem addConstructor_ok {d : ClassDecl} {p : Property} {propertyIndent indent : Text}
    {statements : List (List Token)} {u : Unit} (roomy : w.chain.Roomy)
    (last : d.properties.getLast? = some p)
    (semicolon : w.chain.tokenIs (·.isPunctuation ';') p.terminator = true)
    (order : w.chain.order = left ++ p.terminator :: right)
    (ok : addConstructor d propertyIndent indent statements w = .ok u w') :
    ∃ fillers rest separator ids, right = fillers ++ rest ∧ TrailsLine w.chain fillers rest ∧
      (separator = '\n' :: '\n' :: propertyIndent ∨ ∃ next behind, rest = next :: behind ∧
        w.chain.isWhitespace next = true ∧ separator = w.chain.textOf next) ∧
      Inserted w.chain w'.chain (left ++ p.terminator :: fillers)
        (constructorTokens separator propertyIndent indent
          (if d.hasParent then parentCall :: statements else statements)) rest ids := by
  rw [addConstructor, last] at ok
  obtain ⟨anchor, w₁, found, ok⟩ := bind_ok.mp ok
  obtain ⟨tail, rfl⟩ := look_ok.mp found
  obtain ⟨separator, w₁, found, ok⟩ := bind_ok.mp ok
  obtain ⟨separates, rfl⟩ := look_ok.mp found
  obtain rfl := Except.ok.inj separates
  obtain ⟨fillers, rest, rfl, trails, final⟩ :=
    lineTail_eq roomy.wellFormed order (not_comment_of_semicolon semicolon)
  rw [Except.ok.inj tail] at final
  obtain ⟨init, same⟩ := List.getLast?_eq_some_iff.mp final
  have place : w.chain.order = (left ++ init) ++ anchor :: rest := by
    rw [order, ← List.cons_append, same]
    simp
  obtain ⟨ids, inserted⟩ := putAllAfter_ok roomy place ok
  rw [List.append_assoc, ← same] at inserted
  exact ⟨fillers, rest, _, ids, rfl, trails, separator_cases roomy.wellFormed place, inserted⟩

end ConstructorDefaults

end Restyle
