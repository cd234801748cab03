import Restyle.Proofs.Rule.Run

/-!
# Comments

A default is copied from the first to the last node of its value, but taken out from the variable to
the semicolon. What a run loses are the comments in between (`lost`), and nothing else.
-/

namespace Restyle

theorem Token.not_comment_of_whitespace {t : Token} (blank : t.isWhitespace = true) :
    t.isComment = false := by
  have kind : t.kind = .whitespace := beq_iff_eq.mp blank
  simp [isComment, kind]

namespace Chain
variable {c d : Chain} {left mid right ids ids' : List NodeId} {a b : NodeId}

def commentsAmong (c : Chain) (ids : List NodeId) : List Token :=
  (ids.filterMap c.token?).filter Token.isComment

def comments (c : Chain) : List Token := c.commentsAmong c.order

def between (c : Chain) (a b : NodeId) : List NodeId :=
  (c.order.dropWhile (· ≠ a)).tail.takeWhile (· ≠ b)

theorem between_eq (nodup : c.order.Nodup) (order : c.order = left ++ a :: (mid ++ b :: right)) :
    c.between a b = mid := by
  rw [order] at nodup
  obtain ⟨-, second, apart⟩ := List.nodup_append.mp nodup
  obtain ⟨-, third⟩ := List.nodup_cons.mp second
  obtain ⟨-, -, apart'⟩ := List.nodup_append.mp third
  have early : ∀ x ∈ left, x ≠ a := fun x member => apart x member a List.mem_cons_self
  have inner : ∀ x ∈ mid, x ≠ b := fun x member => apart' x member b List.mem_cons_self
  rw [between, order, List.dropWhile_append_of_pos (by simpa using early),
    List.dropWhile_cons_of_neg (by simp), List.tail_cons,
    List.takeWhile_append_of_pos (by simpa using inner), List.takeWhile_cons_of_neg (by simp),
    List.append_nil]

theorem mem_order_of_between {id : NodeId} (member : id ∈ c.between a b) : id ∈ c.order :=
  (List.dropWhile_sublist _).subset (List.mem_of_mem_tail ((List.takeWhile_sublist _).subset member))

@[simp] theorem commentsAmong_append :
    c.commentsAmong (ids ++ ids') = c.commentsAmong ids ++ c.commentsAmong ids' := by
  simp [commentsAmong]

theorem commentsAmong_flatMap {α : Type} {xs : List α} {f : α → List NodeId} :
    c.commentsAmong (xs.flatMap f) = xs.flatMap fun x => c.commentsAmong (f x) := by
  simp [commentsAmong, List.filterMap_flatMap, List.filter_flatMap]

theorem commentsAmong_congr (same : ∀ id ∈ ids, d.token? id = c.token? id) :
    d.commentsAmong ids = c.commentsAmong ids :=
  congrArg (List.filter Token.isComment) (tokensOf_congr same)

theorem commentsAmong_of_tokens {tokens : List Token} (same : ids.map c.token? = tokens.map some) :
    c.commentsAmong ids = tokens.filter Token.isComment :=
  congrArg (List.filter Token.isComment) (tokensOf_eq same)

theorem commentsAmong_perm (perm : ids.Perm ids') :
    (c.commentsAmong ids).Perm (c.commentsAmong ids') :=
  (perm.filterMap _).filter _

theorem Inserted.comments {tokens : List Token} (inserted : Inserted c d left tokens right ids)
    (sound : c.Sound) : d.comments.Perm (c.comments ++ tokens.filter Token.isComment) := by
  have after : d.comments = c.commentsAmong left ++
      (tokens.filter Token.isComment ++ c.commentsAmong right) := by
    show (d.tokensOf d.order).filter Token.isComment = _
    rw [inserted.tokensOf_order sound, List.filter_append, List.filter_append]
    rfl
  rw [after, Chain.comments, inserted.before, commentsAmong_append, List.append_assoc]
  exact List.perm_append_comm.append_left _

end Chain

namespace ConstructorDefaults
open RuleM
variable {c₀ c : Chain} {ds fin todo : List ClassDecl} {cls : ClassDecl} {w w' w₁ : Workspace}
  {x : Property × Initializer} {l r : List NodeId} {inside : Forest} {more : List Member}

/-- The comments around the value of a property. -/
def lostIn (c : Chain) (x : Property × Initializer) : List Token :=
  c.commentsAmong (c.between x.1.variableId x.2.first ++ c.between x.2.last x.1.terminator)

/-- The comments of a class that do not come along when its defaults are moved. -/
def lost (c : Chain) (cls : ClassDecl) : List Token := (moved cls).flatMap (lostIn c)

theorem filter_reindent {source target : Text} {ts : List Token} :
    (ts.map (reindent source target)).filter Token.isComment = ts.filter Token.isComment := by
  induction ts with
  | nil => rfl
  | cons t ts ih =>
    rw [List.map_cons, List.filter_cons, List.filter_cons, ih]
    rcases reindent_cases source target t with same | ⟨blank, blank'⟩
    · rw [same]
    · simp [Token.not_comment_of_whitespace blank, Token.not_comment_of_whitespace blank']

theorem filter_assignment {indent : Text} {ids : List NodeId} {s : List Token}
    (ok : assignment c indent x.1 x.2 = .ok s) (span : c.span x.2.first x.2.last = .ok ids) :
    s.filter Token.isComment = c.commentsAmong ids := by
  obtain ⟨ids', ts, source, span', tokens, rfl⟩ := assignment_ok ok
  rw [span] at span'
  obtain rfl := Except.ok.inj span'
  have front : ([.classify .variableName "$this".toList, operator "->", identifier x.1.name, space,
      operator "=", space] : List Token).filter Token.isComment = [] := by
    have name : (identifier x.1.name).isComment = false :=
      Token.isComment_classify _ (by decide) (by decide)
    have marks : ([.classify .variableName "$this".toList, operator "->", space, operator "=", space] :
      List Token).filter Token.isComment = [] := by decide
    simp_all
  have back : [mark ';'].filter Token.isComment = [] := by decide
  rw [List.filter_append, List.filter_append, front, back, filter_reindent,
    Chain.commentsAmong_of_tokens tokens, List.nil_append, List.append_nil]

/-- The comments of a default are those around its value and those of the statement. -/
theorem StandsAt.comments (stands : StandsAt c₀ c ds cls l inside r more) (sound : c.Sound)
    (base : c₀.Sound) (tokens : ∀ id, c₀.Known id → c.token? id = c₀.token? id)
    (member : x ∈ movable cls) {indent : Text} {s : List Token}
    (ok : assignment c indent x.1 x.2 = .ok s) :
    (c₀.commentsAmong (c₀.between x.1.variableId x.1.terminator)).Perm
      (lostIn c₀ x ++ s.filter Token.isComment) := by
  have nodup := base.wellFormed.order_nodup
  obtain ⟨f₁, lead, core, trail, f₂, y₀, z₀, rfl, value, -, same⟩ :=
    stands.value sound base tokens member
  have order := value.order
  obtain ⟨after, head⟩ := List.head?_eq_some_iff.mp value.default.starts
  obtain ⟨before, final⟩ := List.getLast?_eq_some_iff.mp value.default.ends
  have whole : c₀.between x.1.variableId x.1.terminator = lead.ids ++ (core.ids ++ trail.ids) := by
    rw [Chain.between_eq nodup order, Forest.ids_append, Forest.ids_append]
  have order₁ : c₀.order = y₀ ++ x.1.variableId :: (lead.ids ++ x.2.first ::
      (after ++ (trail.ids ++ x.1.terminator :: z₀))) := by simp [order, head]
  have order₂ : c₀.order = (y₀ ++ x.1.variableId :: (lead.ids ++ before)) ++ x.2.last ::
      (trail.ids ++ x.1.terminator :: z₀) := by simp [order, final]
  have place : c.order = (l ++ cls.body.opener :: (f₁.ids ++ x.1.variableId :: lead.ids)) ++ core.ids ++
      (trail.ids ++ x.1.terminator :: (f₂.ids ++ cls.body.closer :: r)) := by
    simp [stands.group.order, Forest.ids]
  have span := sound.wellFormed.span_of_order place value.default.starts value.default.ends
  have copied : c.commentsAmong core.ids = c₀.commentsAmong core.ids :=
    Chain.commentsAmong_congr fun id inside => List.map_inj_left.mp same id inside
  rw [filter_assignment ok span, copied, whole, lostIn,
    Chain.between_eq nodup order₁, Chain.between_eq nodup order₂, ← Chain.commentsAmong_append]
  refine Chain.commentsAmong_perm ?_
  rw [List.append_assoc]
  exact List.perm_append_comm.append_left _

/-- A body is what is left of it and the nodes between the variables and the semicolons. -/
theorem Layout.perm {c₁ : Chain} {f f' : Forest} {xs : List (Property × Initializer)}
    {between : Property × Initializer → List NodeId} (layout : Layout c₁ f xs f')
    (is : ∀ x ∈ xs, ∀ y mid z, f.ids = y ++ x.1.variableId :: (mid ++ x.1.terminator :: z) →
      between x = mid) :
    f.ids.Perm (f'.ids ++ xs.flatMap between) := by
  induction layout with
  | nil f => simp
  | cons g lead core trail f f' x xs done default plain moves here without rest ih =>
    have here : between x = (lead ++ (core ++ trail)).ids :=
      is x List.mem_cons_self g.ids _ f.ids (by simp [Forest.ids])
    have later : ∀ x' ∈ xs, ∀ y mid z,
        f.ids = y ++ x'.1.variableId :: (mid ++ x'.1.terminator :: z) → between x' = mid := by
      intro x' member y mid z place
      refine is x' (List.mem_cons_of_mem _ member) (g.ids ++ x.1.variableId ::
        ((lead ++ (core ++ trail)).ids ++ x.1.terminator :: y)) mid z ?_
      simp [Forest.ids, place]
    have behind := ih later
    simp only [List.perm_iff_count, List.flatMap_cons, here, Forest.ids_append, Forest.ids,
      List.count_append, List.count_cons] at behind ⊢
    intro id
    have := behind id
    omega

/-- The comments of a chain from which defaults are taken out. -/
theorem Turn.drops_comments (turn : Turn c₀ ds fin cls todo)
    (inv : Inv c₀ ds fin (cls :: todo) w.chain)
    (stands : StandsAt c₀ w.chain ds cls l inside r more)
    (ok : (movable cls).forM (fun x => dropDefault cls x.1) w = .ok () w₁) :
    w.chain.comments.Perm (w₁.chain.comments ++ (movable cls).flatMap fun x =>
      c₀.commentsAmong (c₀.between x.1.variableId x.1.terminator)) := by
  have base := turn.base.wellFormed
  obtain ⟨f', layout⟩ := exists_layout stands.group.fits.2.1 stands.defaults
  have order : w.chain.order = (l ++ [cls.body.opener]) ++ (inside.ids ++ cls.body.closer :: r) := by
    simp [stands.group.order]
  have nodup : inside.ids.Nodup := by
    have nodup := inv.sound.wellFormed.order_nodup
    rw [order] at nodup
    exact (List.nodup_append.mp (List.nodup_append.mp nodup).2.1).1
  have between : ∀ x ∈ movable cls, ∀ y mid z,
      inside.ids = y ++ x.1.variableId :: (mid ++ x.1.terminator :: z) →
      c₀.between x.1.variableId x.1.terminator = mid := by
    intro x member y mid z place
    obtain ⟨f₁, m, f₂, y₀, z₀, rfl, -, order₀⟩ := stands.spans x member
    have place' : (f₁ ++ .atom x.1.variableId (m ++ .atom x.1.terminator f₂)).ids =
        f₁.ids ++ x.1.variableId :: (m.ids ++ x.1.terminator :: f₂.ids) := by simp [Forest.ids]
    obtain ⟨-, rfl, -⟩ := between_unique nodup place' place
    exact Chain.between_eq base.order_nodup order₀
  obtain ⟨-, -, order', tokens⟩ := layout.drops inv.sound.toRoomy order ok
  have perm : w.chain.order.Perm (w₁.chain.order ++ (movable cls).flatMap fun x =>
      c₀.between x.1.variableId x.1.terminator) := by
    have body := layout.perm between
    simp only [List.perm_iff_count, order, order', List.count_append] at body ⊢
    intro id
    have := body id
    omega
  have read : ∀ x ∈ movable cls,
      w.chain.commentsAmong (c₀.between x.1.variableId x.1.terminator) =
        c₀.commentsAmong (c₀.between x.1.variableId x.1.terminator) := by
    intro x member
    refine Chain.commentsAmong_congr fun id inside => inv.tokens id ?_
    exact base.known_of_mem_order (Chain.mem_order_of_between inside)
  rw [Chain.comments, Chain.comments, Chain.commentsAmong_congr fun id _ => tokens id,
    ← List.flatMap_congr read, ← Chain.commentsAmong_flatMap, ← Chain.commentsAmong_append]
  exact Chain.commentsAmong_perm perm

theorem flatMap_perm {xs : List (Property × Initializer)} {ss : List (List Token)}
    {f : Property × Initializer → Except ChainError (List Token)}
    {whole part : Property × Initializer → List Token}
    (pairs : xs.map f = ss.map .ok)
    (each : ∀ x ∈ xs, ∀ s, f x = .ok s → (whole x).Perm (part x ++ s.filter Token.isComment)) :
    (xs.flatMap whole).Perm (xs.flatMap part ++ ss.flatten.filter Token.isComment) := by
  induction xs generalizing ss with
  | nil =>
    obtain rfl := List.map_eq_nil_iff.mp pairs.symm
    exact .refl _
  | cons x xs ih =>
    obtain ⟨s, ss, rfl, first, rest⟩ := List.map_eq_cons_iff.mp pairs.symm
    have here := each x List.mem_cons_self s first.symm
    have later := ih rest.symm fun x' member => each x' (List.mem_cons_of_mem _ member)
    simp only [List.perm_iff_count, List.flatMap_cons, List.flatten_cons, List.filter_append,
      List.count_append] at here later ⊢
    intro t
    have := here t
    have := later t
    omega

theorem Turn.comments (turn : Turn c₀ ds fin cls todo) (inv : Inv c₀ ds fin (cls :: todo) w.chain)
    (ok : ConstructorDefaults.tidy cls w = .ok () w') :
    (w'.chain.comments ++ lost c₀ cls).Perm w.chain.comments := by
  rcases tidy_ok ok with ⟨idle, same⟩ | ⟨active, w₁, indent, statements, moves⟩
  · have none : moved cls = [] := by
      refine List.eq_nil_iff_forall_not_mem.mpr fun x member => ?_
      exact idle (mem_moved.mp member).1
    rw [same, lost, none]
    simp
  · obtain ⟨l, inside, r, more, stands⟩ := turn.standing inv active moves.drops
    obtain ⟨inside', dropped⟩ := turn.dropped inv active stands moves.drops
    obtain ⟨left, tokens, right, ids, inserted, same⟩ := (dropped.adds active moves).inserted
    have dropsOut := turn.drops_comments inv stands moves.drops
    have added := inserted.comments dropped.inv.sound
    have parts := flatMap_perm (Outcome.mapM_ok.mp moves.reads) fun x member s =>
      stands.comments inv.sound turn.base inv.tokens member
    rw [same] at added
    rw [lost, moved_of_active active]
    simp only [List.perm_iff_count, List.count_append] at dropsOut added parts ⊢
    intro t
    have := dropsOut t
    have := added t
    have := parts t
    omega

/-- The comments of the source are those of the result and those that stood around a value. So all
of them survive only if none stood there. -/
theorem comments_survive_iff {profile : String} {limits : Limits}
    (valid : limits.validate profile = .ok ()) {source : Text} {c : Chain}
    (read : Chain.ofSource? limits source = some c) (all : ClassDecl.all c = .ok ds)
    {journal : Array Log.Notice} (done : rule.apply ⟨c, journal⟩ = .ok () w) :
    (w.chain.comments ++ ds.flatMap (lost c)).Perm c.comments ∧
      ((∀ t, c.comments.count t ≤ w.chain.comments.count t) ↔ ds.flatMap (lost c) = []) := by
  have base := Chain.sound_of_source valid read
  obtain ⟨ds', all', run⟩ := apply_ok.mp done
  obtain rfl := Except.ok.inj (all.symm.trans all')
  have perm : (w.chain.comments ++ ds.flatMap (lost c)).Perm c.comments := by
    refine (run_induction (P := fun fin d => (d.comments ++ fin.flatMap (lost c)).Perm c.comments)
      base all ?_ rfl (.start base all) (by simp) run).2
    intro fin cls todo w w' turn inv before ok
    have step := turn.comments inv ok
    simp only [List.perm_iff_count, List.count_append, List.flatMap_append, List.flatMap_cons,
      List.flatMap_nil, List.append_nil] at before step ⊢
    intro t
    have := before t
    have := step t
    omega
  refine ⟨perm, fun survive => ?_, fun none t => ?_⟩
  · refine List.eq_nil_iff_forall_not_mem.mpr fun t member => ?_
    have count := perm.count_eq t
    rw [List.count_append] at count
    have := survive t
    have := List.count_pos_iff.mpr member
    omega
  · rw [none, List.append_nil] at perm
    exact (perm.count_eq t).ge

/-- One comment stands before the equals sign and one in the value. -/
theorem comments_survive_in_value :
    Limits.development.validate "development" = .ok () ∧ ∃ c ds w,
      Chain.ofSource? .development
        "<?php class A{$x/*a*/=[/*b*/];function __construct(){}}".toList = some c ∧
      ClassDecl.all c = .ok ds ∧ rule.apply ⟨c, #[]⟩ = .ok () w ∧
      ds.flatMap (lost c) = [⟨.comment, "/*a*/".toList⟩] ∧
      (w.chain.comments ++ ds.flatMap (lost c)).Perm c.comments ∧
      ¬ ∀ t, c.comments.count t ≤ w.chain.comments.count t := by
  have valid : Limits.development.validate "development" = .ok () := by decide
  have checked : (Chain.ofSource? .development
      "<?php class A{$x/*a*/=[/*b*/];function __construct(){}}".toList).any (fun c =>
        (ClassDecl.all c).toOption.any (fun ds =>
          ds.flatMap (lost c) == [⟨.comment, "/*a*/".toList⟩]) &&
        (after? rule.apply ⟨c, #[]⟩).isSome) = true := by decide +kernel
  obtain ⟨c, read, checked⟩ := (Option.any_eq_true ..).mp checked
  obtain ⟨checked, succeeds⟩ := Bool.and_eq_true_iff.mp checked
  obtain ⟨ds, all, checked⟩ := (Option.any_eq_true ..).mp checked
  obtain ⟨w, runs⟩ := Option.isSome_iff_exists.mp succeeds
  have all : ClassDecl.all c = .ok ds := Outcome.toOption_some.mp all
  have done := after?_some.mp runs
  have lostOne := beq_iff_eq.mp checked
  obtain ⟨perm, survive⟩ := comments_survive_iff valid read all done
  refine ⟨valid, c, ds, w, read, all, done, lostOne, perm, fun every => ?_⟩
  rw [survive.mp every] at lostOne
  cases lostOne

end ConstructorDefaults

end Restyle
