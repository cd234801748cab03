import Restyle.Proofs.Rule.Run

/-!
# What the rule leaves alone

Only the nodes between the variable and the semicolon of a default that is moved are taken out. All
other nodes of the source stay, with their tokens and in their order.
-/

namespace Restyle.ConstructorDefaults
open RuleM
open Chain (Inserted)
variable {c₀ c d : Chain} {ds fin todo : List ClassDecl} {cls : ClassDecl} {out : NodeId → Prop}
  {left mid right ids : List NodeId} {tokens : List Token} {v t : NodeId} {w w' : Workspace}

/-- Nodes that are between two others were between them at the start. -/
theorem Kept.mem_between {id : NodeId} (kept : Kept c₀ c) (nodup : c₀.order.Nodup)
    (order : c.order = left ++ v :: (mid ++ t :: right)) (first : v ∈ c₀.order) (last : t ∈ c₀.order)
    (member : id ∈ c₀.order) (present : id ∈ c.order) :
    id ∈ mid ↔ [v, id, t].Sublist c₀.order := by
  constructor
  · intro inside
    refine kept.sublist ?_ (by simp [first, member, last])
    rw [order]
    exact sublist_of_between inside
  · intro sublist
    have before := idxOf_lt_of_sublist nodup ((List.sublist_append_left [v, id] [t]).trans sublist)
    have after := idxOf_lt_of_sublist nodup ((List.sublist_cons_self v [id, t]).trans sublist)
    rw [order, List.mem_append, List.mem_cons, List.mem_append, List.mem_cons] at present
    rcases present with early | rfl | inside | rfl | late
    · have swapped : [id, v].Sublist c₀.order := by
        refine kept.sublist ?_ (by simp [member, first])
        rw [order]
        exact (List.singleton_sublist.mpr early).append (.cons_cons v (List.nil_sublist _))
      have := idxOf_lt_of_sublist nodup swapped
      omega
    · omega
    · exact inside
    · omega
    · have swapped : [t, id].Sublist c₀.order := by
        refine kept.sublist ?_ (by simp [member, last])
        rw [order]
        exact List.sublist_append_of_sublist_right (.cons _ (List.sublist_append_of_sublist_right
          (.cons_cons t (List.singleton_sublist.mpr late))))
      have := idxOf_lt_of_sublist nodup swapped
      omega

/-- Of the nodes of `c₀`, those with `out` are orphans in `c`, and the others are where they were. -/
structure Frame (c₀ c : Chain) (out : NodeId → Prop) : Prop extends Continues c₀ c where
  inside : ∀ id ∈ c₀.order, id ∈ c.order ↔ ¬ out id
  orphaned : ∀ id ∈ c₀.order, id ∉ c.order → c.state? id = some .orphaned

namespace Frame

theorem start (sound : c.Sound) : Frame c c fun _ => False :=
  ⟨.refl sound, by simp, fun _ member absent => (absent member).elim⟩

theorem congr {out' : NodeId → Prop} (frame : Frame c₀ c out) (same : ∀ id, out id ↔ out' id) :
    Frame c₀ c out' :=
  { frame with inside := fun id member => (frame.inside id member).trans (not_congr (same id)) }

theorem inserted (frame : Frame c₀ c out) (base : c₀.Sound)
    (inserted : Inserted c d left tokens right ids) : Frame c₀ d out := by
  have old : ∀ id ∈ c₀.order, c₀.Known id := fun id member =>
    base.wellFormed.known_of_mem_order member
  have fresh : ∀ id ∈ ids, id ∉ c₀.order := fun id new member =>
    inserted.fresh id new (frame.known (old id member))
  have same : ∀ id ∈ c₀.order, id ∈ d.order ↔ id ∈ c.order := by
    intro id member
    have absent : id ∉ ids := fun new => fresh id new member
    simp [inserted.order, inserted.before, absent]
  refine ⟨⟨inserted.sound frame.sound, ?_, ?_⟩, ?_, ?_⟩
  · intro id known
    exact (inserted.old id (frame.known known)).trans (frame.tokens id known)
  · have before : c.order = left ++ ([] ++ right) := by simpa using inserted.before
    exact frame.kept.of_splice before inserted.order fresh
  · intro id member
    rw [same id member]
    exact frame.inside id member
  · intro id member absent
    rw [same id member] at absent
    exact inserted.orphans id (frame.orphaned id member absent)

/-- The nodes between a variable and a semicolon are taken out. -/
theorem removed (frame : Frame c₀ c out) (base : c₀.Sound) (first : v ∈ c₀.order) (last : t ∈ c₀.order)
    (removed : Removed c d (left ++ [v]) mid (t :: right)) :
    Frame c₀ d fun id => out id ∨ [v, id, t].Sublist c₀.order := by
  have order : c.order = left ++ v :: (mid ++ t :: right) := by simp [removed.before]
  have order' : d.order = (left ++ [v]) ++ ([] ++ t :: right) := removed.order
  have unique : (left ++ v :: (mid ++ t :: right)).Nodup := order ▸ frame.sound.wellFormed.order_nodup
  have between : ∀ id ∈ c₀.order, id ∈ c.order → (id ∈ mid ↔ [v, id, t].Sublist c₀.order) :=
    fun id member present => frame.kept.mem_between base.wellFormed.order_nodup order first last
      member present
  have same : ∀ id, id ∈ d.order ↔ id ∈ c.order ∧ id ∉ mid := by
    intro id
    have apart : id ∈ mid → id ∉ left ∧ id ≠ v ∧ id ≠ t ∧ id ∉ right := by
      intro inside
      simp only [List.nodup_append, List.nodup_cons, List.mem_cons, List.mem_append] at unique
      grind
    simp only [order', order, List.nil_append, List.append_assoc, List.mem_append, List.mem_cons,
      List.not_mem_nil, or_false]
    tauto
  refine ⟨⟨removed.sound frame.sound, ?_, frame.kept.of_splice removed.before order' (by simp)⟩, ?_,
    ?_⟩
  · intro id known
    exact (removed.tokens id).trans (frame.tokens id known)
  · intro id member
    rw [same id, not_or]
    constructor
    · rintro ⟨present, absent⟩
      exact ⟨(frame.inside id member).mp present, fun sublist =>
        absent ((between id member present).mpr sublist)⟩
    · rintro ⟨unmoved, apart⟩
      have present := (frame.inside id member).mpr unmoved
      exact ⟨present, fun inside => apart ((between id member present).mp inside)⟩
  · intro id member absent
    by_cases present : id ∈ c.order
    · have inside : id ∈ mid := by
        by_contra outside
        exact absent ((same id).mpr ⟨present, outside⟩)
      exact removed.orphaned id inside
    · exact removed.orphans id (frame.orphaned id member present)

theorem drops {xs : List (Property × Initializer)} (frame : Frame c₀ w.chain out) (base : c₀.Sound)
    (old : ∀ x ∈ xs, x.1.variableId ∈ c₀.order ∧ x.1.terminator ∈ c₀.order)
    (ok : xs.forM (fun x => dropDefault cls x.1) w = .ok () w') :
    Frame c₀ w'.chain fun id =>
      out id ∨ ∃ x ∈ xs, [x.1.variableId, id, x.1.terminator].Sublist c₀.order := by
  induction xs generalizing w out with
  | nil =>
    obtain rfl := forM_nil_ok.mp ok
    exact frame.congr (by simp)
  | cons x xs ih =>
    obtain ⟨w₁, first, rest⟩ := forM_cons_ok.mp ok
    obtain ⟨left, mid, right, -, gone⟩ :=
      dropDefault_ok frame.sound.toRoomy (frame.sound.connected _).mp first
    obtain ⟨variableOld, terminatorOld⟩ := old x List.mem_cons_self
    have after := ih (frame.removed base variableOld terminatorOld gone)
      (fun y member => old y (List.mem_cons_of_mem _ member)) rest
    exact after.congr (by simp [or_assoc])

end Frame

theorem Turn.frame (turn : Turn c₀ ds fin cls todo) (inv : Inv c₀ ds fin (cls :: todo) w.chain)
    (frame : Frame c₀ w.chain out) (ok : ConstructorDefaults.tidy cls w = .ok () w') :
    Frame c₀ w'.chain fun id => out id ∨ InDefault c₀ cls id := by
  rcases tidy_ok ok with ⟨idle, same⟩ | ⟨active, w₁, indent, statements, moves⟩
  · rw [same]
    have none : ∀ id, ¬ InDefault c₀ cls id := by
      intro id inDefault
      obtain ⟨x, moves, -⟩ := inDefault_iff.mp inDefault
      exact idle (mem_moved.mp moves).1
    exact frame.congr (by simp [none])
  · have dropped := frame.drops turn.base
      (fun x member => (turn.read turn.mem).default_mem member) moves.drops
    obtain ⟨l, inside, r, more, stands⟩ := turn.standing inv active moves.drops
    obtain ⟨inside', there⟩ := turn.dropped inv active stands moves.drops
    obtain ⟨left, tokens, right, ids, inserted, -⟩ := (there.adds active moves).inserted
    refine (dropped.inserted turn.base inserted).congr fun id => or_congr_right ?_
    simp [inDefault_iff, mem_moved, active]

theorem frame_of_run {journal : Array Log.Notice} (base : c₀.Sound) (all : ClassDecl.all c₀ = .ok ds)
    (ok : ds.forM tidy ⟨c₀, journal⟩ = .ok () w) :
    Frame c₀ w.chain fun id => ∃ d ∈ ds, InDefault c₀ d id := by
  refine (run_induction (P := fun fin c => Frame c₀ c fun id => ∃ d ∈ fin, InDefault c₀ d id)
    base all ?_ rfl (.start base all) ?_ ok).2
  · intro fin cls todo w w' turn inv frame ok
    refine (turn.frame inv frame ok).congr fun id => ?_
    simp [or_and_right, exists_or]
  · exact (Frame.start base).congr (by simp)

/-- No token changes, and the nodes of the source that become orphans are exactly those between the
variable and the semicolon of a default that is moved. All others stay in the chain, in their order. -/
theorem only_defaults_removed {profile : String} {limits : Limits}
    (valid : limits.validate profile = .ok ()) {source : Text} {c : Chain}
    (read : Chain.ofSource? limits source = some c) {journal : Array Log.Notice}
    (done : rule.apply ⟨c, journal⟩ = .ok () w) :
    ∃ ds, ClassDecl.all c = .ok ds ∧
      (w.chain.order.filter (· ∈ c.order)).Sublist c.order ∧
      ∀ id, c.Known id → w.chain.token? id = c.token? id ∧
        (w.chain.state? id = some .orphaned ↔ ∃ d ∈ ds, InDefault c d id) ∧
        ((¬ ∃ d ∈ ds, InDefault c d id) →
          w.chain.state? id = some .linked ∧ id ∈ w.chain.order) := by
  have base := Chain.sound_of_source valid read
  obtain ⟨ds, all, run⟩ := apply_ok.mp done
  have frame := frame_of_run base all run
  refine ⟨ds, all, frame.kept, fun id known => ⟨frame.tokens id known, ?_⟩⟩
  have member := Chain.mem_order_of_source valid read known
  have linked : id ∈ w.chain.order → w.chain.state? id = some .linked :=
    frame.sound.wellFormed.linked_of_mem_order
  refine ⟨⟨fun orphaned => ?_, fun moved => ?_⟩, fun unmoved => ?_⟩
  · by_contra unmoved
    simp [linked ((frame.inside id member).mpr unmoved)] at orphaned
  · exact frame.orphaned id member fun present => (frame.inside id member).mp present moved
  · have present := (frame.inside id member).mpr unmoved
    exact ⟨linked present, present⟩

/-- The default of a static property stays, and the one after it goes. -/
theorem only_defaults_removed_static :
    Limits.development.validate "development" = .ok () ∧ ∃ c w ds,
      Chain.ofSource? .development
        "<?php class A{static $s=1;$x=2;function __construct(){}}".toList = some c ∧
      rule.apply ⟨c, #[]⟩ = .ok () w ∧ w.chain.state? (.ofIndex 14) = some .orphaned ∧
      ClassDecl.all c = .ok ds ∧ (w.chain.order.filter (· ∈ c.order)).Sublist c.order ∧
      ∀ id, c.Known id → w.chain.token? id = c.token? id ∧
        (w.chain.state? id = some .orphaned ↔ ∃ d ∈ ds, InDefault c d id) := by
  have valid : Limits.development.validate "development" = .ok () := by decide
  have checked : (Chain.ofSource? .development
      "<?php class A{static $s=1;$x=2;function __construct(){}}".toList).any (fun c =>
        (after? rule.apply ⟨c, #[]⟩).any
          (·.chain.state? (.ofIndex 14) == some .orphaned)) = true := by decide +kernel
  obtain ⟨c, read, checked⟩ := (Option.any_eq_true ..).mp checked
  obtain ⟨w, runs, orphaned⟩ := (Option.any_eq_true ..).mp checked
  have done := after?_some.mp runs
  obtain ⟨ds, all, kept, each⟩ := only_defaults_removed valid read done
  exact ⟨valid, c, w, ds, read, done, beq_iff_eq.mp orphaned, all, kept,
    fun id known => ⟨(each id known).1, (each id known).2.1⟩⟩

end Restyle.ConstructorDefaults
