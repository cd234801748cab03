import Restyle.Proofs.Rule.Failure

/-!
# When the rule gets through

The classes are read before any of them is worked on. So a class fails in its turn if an earlier one
took its braces (`Shadowed`), and only then. Apart from that the chain may become full, and before
that a group may not be closed.
-/

namespace Restyle

namespace ConstructorDefaults
open RuleM
open ClassDecl (membersOf outline)
variable {c₀ c : Chain} {ds fin todo : List ClassDecl} {cls : ClassDecl} {w w' w₁ : Workspace}
  {P : ChainError → Prop}

/-! ### The nodes that a class names -/

structure Anchored (c : Chain) (cls : ClassDecl) : Prop where
  opener : c.Known cls.body.opener
  starts : ∀ x ∈ movable cls, c.Known x.1.start
  ends : ∀ x ∈ movable cls, c.Known x.1.variableId ∧ c.Known x.1.terminator
  values : ∀ x ∈ movable cls, c.Known x.2.first ∧ c.Known x.2.last
  target : ∀ m ∈ cls.constructor?, c.Known m.start ∧ ∀ body ∈ m.body, c.Known body.opener

theorem ReadFrom.start_mem (read : ReadFrom c₀ cls) {m : Member} (member : m ∈ cls.members)
    {start : NodeId} (is : start ∈ m.start?) : start ∈ c₀.order := by
  obtain ⟨l, inside, r, group, members⟩ := read.groupAt
  rw [members] at member
  obtain ⟨done, rest, split⟩ := List.append_of_mem member
  obtain ⟨before, q, x, after, place, rfl, -⟩ := ClassDecl.exists_run split
  obtain ⟨i, head, rfl⟩ := Member.start?_ofItems is
  have among := List.mem_of_mem_head? head
  have item : i ∈ inside.significant c₀ := by
    rw [place]
    simp only [List.mem_append, List.mem_cons, List.not_mem_nil, or_false] at among ⊢
    tauto
  have within := (Forest.item_ids (Forest.mem_significant.mp item).1).1
  simp [group.order, within]

theorem ReadFrom.value_mem (read : ReadFrom c₀ cls) {x : Property × Initializer}
    (member : x ∈ movable cls) : x.2.first ∈ c₀.order ∧ x.2.last ∈ c₀.order := by
  obtain ⟨l, inside, r, group, members⟩ := read.groupAt
  obtain ⟨done, rest, split, value⟩ := mem_movable member
  rw [members] at split
  obtain ⟨f₁, lead, core, trail, f₂, rfl, default, -⟩ :=
    ClassDecl.exists_default group.fits.2.1 split value
  have first := List.mem_of_mem_head? default.starts
  have last := List.mem_of_getLast? default.ends
  simp [group.order, Forest.ids, first, last]

theorem ReadFrom.anchored (read : ReadFrom c₀ cls) (base : c₀.Sound) : Anchored c₀ cls := by
  have known : ∀ {id}, id ∈ c₀.order → c₀.Known id := fun member =>
    base.wellFormed.known_of_mem_order member
  refine ⟨read.known base, fun x member => ?_, fun x member => ?_, fun x member => ?_,
    fun m found => ⟨known (read.start_mem (method_of_constructor found) rfl), fun body has => ?_⟩⟩
  · obtain ⟨done, rest, split, -⟩ := mem_movable member
    exact known (read.start_mem (m := .property x.1) (by simp [split]) rfl)
  · exact (read.default_mem member).imp known known
  · exact (read.value_mem member).imp known known
  · obtain ⟨l, inside, r, group, members⟩ := read.groupAt
    obtain ⟨f₁, inner, f₂, -, place⟩ :=
      groupAt_of_method group (members ▸ method_of_constructor found) has
    exact known (by simp [place.order])

theorem Inv.anchored (inv : Inv c₀ ds fin todo c) (base : c₀.Sound) (member : cls ∈ fin ++ todo) :
    Anchored c cls := by
  obtain ⟨opener, starts, ends, values, target⟩ := (inv.reads cls member).anchored base
  exact ⟨inv.known opener, fun x inside => inv.known (starts x inside),
    fun x inside => (ends x inside).imp inv.known inv.known,
    fun x inside => (values x inside).imp inv.known inv.known,
    fun m found => (target m found).imp inv.known fun bodies body has => inv.known (bodies body has)⟩

/-! ### One class -/

theorem tidy_of_active (active : Active cls.members) :
    ∃ x ∈ movable cls, ∃ target, tidy cls = moveDefaults cls x.1 (movable cls) target ∧
      ∀ start body, target = some (start, body) →
        ∃ m ∈ cls.constructor?, body ∈ m.body ∧ m.start = start := by
  obtain ⟨some, bodies⟩ := active_iff.mp active
  unfold tidy
  cases defaults : (movable cls).head? with
  | none => exact (some (List.head?_eq_none_iff.mp defaults)).elim
  | some x =>
    refine ⟨x, List.mem_of_mem_head? defaults, ?_⟩
    cases found : cls.constructor? with
    | none => exact ⟨none, by simp only [defaults], by simp⟩
    | some m =>
      obtain ⟨body, has⟩ := Option.isSome_iff_exists.mp (bodies m found)
      refine ⟨Option.some (m.start, body), by simp only [defaults, has], fun start body' same => ?_⟩
      obtain ⟨rfl, rfl⟩ := Prod.mk.inj (Option.some.inj same)
      exact ⟨m, rfl, has, rfl⟩

/-- A class fails where its statements are made, its defaults taken out or the statements put in. -/
theorem tidy_fails {P : ChainError → Workspace → Prop} (wf : w.chain.WellFormed)
    (anchored : Anchored w.chain cls) (active : Active cls.members)
    (indents : ∀ m ∈ cls.constructor?, ∀ body ∈ m.body, ∀ unit e,
      statementIndent w.chain m.start body unit = .error e → P e w)
    (reads : ∀ x ∈ movable cls, ∀ indent e, assignment w.chain indent x.1 x.2 = .error e → P e w)
    (drops : FailsIn P ((movable cls).forM fun x => dropDefault cls x.1) w)
    (adds : ∀ w₁, (movable cls).forM (fun x => dropDefault cls x.1) w = .ok () w₁ →
      ∀ indent statements,
        (∀ m ∈ cls.constructor?, ∀ body ∈ m.body,
          FailsIn P (addStatements m.start body indent statements) w₁) ∧
        ∀ propertyIndent, FailsIn P (addConstructor cls propertyIndent indent statements) w₁) :
    FailsIn P (tidy cls) w := by
  obtain ⟨x, member, target, same, isTarget⟩ := tidy_of_active active
  rw [same]
  obtain ⟨text, found⟩ := wf.indentAt_isOk anchored.opener
  refine .bind (failsIn_of_ok (look_ok.mpr ⟨found, rfl⟩)) fun braceIndent w₀ found => ?_
  obtain ⟨-, rfl⟩ := look_ok.mp found
  obtain ⟨text, found⟩ := wf.indentAt_isOk (anchored.starts x member)
  refine .bind (failsIn_of_ok (look_ok.mpr ⟨found, rfl⟩)) fun propertyIndent w₀ found => ?_
  obtain ⟨-, rfl⟩ := look_ok.mp found
  have made : ∀ indent, FailsIn P (look fun c => (movable cls).mapM fun x =>
      assignment c indent x.1 x.2) w := by
    refine fun indent => failsIn_look fun e failed => ?_
    obtain ⟨x, member, failed⟩ := Outcome.mapM_error failed
    exact reads x member indent e failed
  cases target with
  | none =>
    refine .bind (failsIn_of_ok (pure_ok.mpr ⟨rfl, rfl⟩)) fun indent w₀ found => ?_
    obtain ⟨-, rfl⟩ := pure_ok.mp found
    refine .bind (made indent) fun statements w₀ found => ?_
    obtain ⟨-, rfl⟩ := look_ok.mp found
    exact .bind drops fun _ w₁ ok => (adds w₁ ok indent statements).2 propertyIndent
  | some place =>
    obtain ⟨m, constructor, has, starts⟩ := isTarget place.1 place.2 rfl
    refine .bind (failsIn_look fun e failed => ?_) fun indent w₀ found => ?_
    · rw [← starts] at failed
      exact indents m constructor place.2 has _ e failed
    · obtain ⟨-, rfl⟩ := look_ok.mp found
      refine .bind (made indent) fun statements w₀ found => ?_
      obtain ⟨-, rfl⟩ := look_ok.mp found
      refine .bind drops fun _ w₁ ok => ?_
      show FailsIn P (addStatements place.1 place.2 indent statements) w₁
      rw [← starts]
      exact (adds w₁ ok indent statements).1 m constructor place.2 has

theorem drops_isOk (cls : ClassDecl) {c₁ : Chain} {f f' : Forest} {xs : List (Property × Initializer)}
    (layout : Layout c₁ f xs f') {left right : List NodeId} (sound : w.chain.Sound)
    (order : w.chain.order = left ++ (f.ids ++ right)) :
    ∃ w', xs.forM (fun x => dropDefault cls x.1) w = .ok () w' := by
  induction layout generalizing w left with
  | nil f => exact ⟨w, forM_nil_ok.mpr rfl⟩
  | cons g lead core trail f f' x xs done default plain moves here without rest ih =>
    have order : w.chain.order = (left ++ g.ids) ++ x.1.variableId ::
        ((lead ++ (core ++ trail)).ids ++ x.1.terminator :: (f.ids ++ right)) := by
      simp [order, Forest.ids]
    have some : (lead ++ (core ++ trail)).ids ≠ [] := by
      have inner := List.ne_nil_of_mem (List.mem_of_mem_head? default.starts)
      simp [inner]
    obtain ⟨w₁, first⟩ := dropDefault_isOk (d := cls) sound order some
    have removed := dropDefault_between sound.toRoomy order first
    have after : w₁.chain.order =
        (left ++ g.ids ++ [x.1.variableId, x.1.terminator]) ++ (f.ids ++ right) := by
      simp [removed.order]
    obtain ⟨w', more⟩ := ih (removed.sound sound) after
    exact ⟨w', forM_cons_ok.mpr ⟨w₁, first, more⟩⟩

theorem isWhitespace_of_groupAt {l r : List NodeId} {o e : NodeId} {inside : Forest}
    (group : GroupAt c l o inside e r) : c.isWhitespace o = false ∧ c.isWhitespace e = false := by
  obtain ⟨bracket, opener, closer⟩ := group.fits.1
  obtain ⟨t, token, closes⟩ := Option.bind_eq_some_iff.mp opener
  refine ⟨?_, ClassDecl.isWhitespace_of_punctuation closer fun u kind => by
    simp [Token.isPunctuation, kind]⟩
  rw [Chain.isWhitespace, Chain.tokenIs_of_token? token, Token.isWhitespace, beq_eq_false_iff_ne]
  intro kind
  simp [Token.closer?, kind] at closes

theorem statementIndent_of_groupAt {l r : List NodeId} {inside : Forest} {start : NodeId} {body : Group}
    {unit : Text} (wf : c.WellFormed) (group : GroupAt c l body.opener inside body.closer r)
    (known : c.Known start) : ∃ text, statementIndent c start body unit = .ok text := by
  obtain ⟨opener, run⟩ := wf.run_of_order group.order
  -- If nothing else is seen after the opening brace, the closing brace is.
  rcases Chain.all_spaces_or_split c inside.ids with space | ⟨spaces, x, rest, ids, space, seen⟩
  · exact statementIndent_isOk wf known run space (isWhitespace_of_groupAt group).2 opener
  · rw [ids, List.append_assoc, List.cons_append] at run
    exact statementIndent_isOk wf known run space seen opener

/-- A class gets done if there is room, provided that its constructor and its values are there, that
its defaults can be taken out, and that its constructor and its properties are there after that. -/
theorem tidy_full (wf : w.chain.WellFormed) (anchored : Anchored w.chain cls)
    (active : Active cls.members)
    (bodies : ∀ m ∈ cls.constructor?, ∀ body ∈ m.body,
      ∃ l inner r, GroupAt w.chain l body.opener inner body.closer r)
    (values : ∀ x ∈ movable cls, ∃ ids, w.chain.span x.2.first x.2.last = .ok ids)
    (drops : ∃ w₁, (movable cls).forM (fun x => dropDefault cls x.1) w = .ok () w₁ ∧
      w₁.chain.Sound ∧ (∀ id, w₁.chain.token? id = w.chain.token? id) ∧
      (∀ m ∈ cls.constructor?, ∀ body ∈ m.body,
        ∃ l inner r, GroupAt w₁.chain l body.opener inner body.closer r) ∧
      ∀ p ∈ cls.properties, p.terminator ∈ w₁.chain.order ∧
        w₁.chain.tokenIs (·.isPunctuation ';') p.terminator = true) :
    FailsIn Full (tidy cls) w := by
  obtain ⟨w₁, ok, sound, tokens, bodies', properties⟩ := drops
  refine tidy_fails wf anchored active ?_ ?_ (failsIn_of_ok ok) ?_
  · intro m found body has unit e failed
    obtain ⟨l, inner, r, group⟩ := bodies m found body has
    obtain ⟨text, ok⟩ : ∃ text, statementIndent w.chain m.start body unit = .ok text :=
      statementIndent_of_groupAt wf group (anchored.target m found).1
    rw [ok] at failed
    cases failed
  · intro x member indent e failed
    obtain ⟨ids, span⟩ := values x member
    obtain ⟨s, ok⟩ : ∃ s, assignment w.chain indent x.1 x.2 = .ok s :=
      assignment_isOk wf (anchored.starts x member) span
    rw [ok] at failed
    cases failed
  · intro w₂ ok' indent statements
    obtain rfl : w₁ = w₂ := by
      rw [ok] at ok'
      exact (EStateM.Result.ok.inj ok').2
    refine ⟨fun m found body has => ?_, fun _ => addConstructor_full sound properties⟩
    obtain ⟨l, inner, r, group⟩ := bodies' m found body has
    have order : w₁.chain.order = (l ++ body.opener :: inner.ids) ++ body.closer :: r := by
      simp [group.order]
    have start : w₁.chain.Known m.start := by
      rw [Chain.known_iff_token?, tokens, ← Chain.known_iff_token?]
      exact (anchored.target m found).1
    exact addStatements_full sound start order (by simp) (isWhitespace_of_groupAt group).1

section Turn
variable (turn : Turn c₀ ds fin cls todo) (inv : Inv c₀ ds fin (cls :: todo) w.chain)
  (active : Active cls.members)
include turn inv active

/-- A class that is there gets done if there is room. -/
theorem Turn.isLimit_of_standing (standing : Standing c₀ w.chain ds cls) :
    FailsWith ChainError.IsLimit (ConstructorDefaults.tidy cls) w := by
  have wf := inv.sound.wellFormed
  have anchored : Anchored w.chain cls := inv.anchored turn.base (by simp)
  obtain ⟨l, inside, r, more, stands⟩ := standing
  refine (tidy_full wf anchored active ?_ ?_ ?_).mono fun e w full => full.1
  · intro m found body has
    obtain ⟨f₁, inner, f₂, -, group⟩ := groupAt_of_constructor stands.group
      (congrArg (·.map bare) stands.outline) found has
    exact ⟨_, inner, _, group⟩
  · intro x member
    obtain ⟨f₁, lead, core, trail, f₂, y₀, z₀, rfl, value, -⟩ :=
      stands.value inv.sound turn.base inv.tokens member
    have order : w.chain.order = (l ++ cls.body.opener :: (f₁.ids ++ x.1.variableId :: lead.ids)) ++
        core.ids ++ (trail.ids ++ x.1.terminator :: (f₂.ids ++ cls.body.closer :: r)) := by
      simp [stands.group.order, Forest.ids]
    exact ⟨core.ids, wf.span_of_order order value.default.starts value.default.ends⟩
  · obtain ⟨f', layout⟩ := exists_layout stands.group.fits.2.1 stands.defaults
    have order : w.chain.order = (l ++ [cls.body.opener]) ++ (inside.ids ++ cls.body.closer :: r) := by
      simp [stands.group.order]
    obtain ⟨w₁, ok⟩ := drops_isOk cls layout inv.sound order
    obtain ⟨inside', dropped⟩ := turn.dropped inv active stands ok
    obtain ⟨-, -, -, tokens⟩ := layout.drops inv.sound.toRoomy order ok
    refine ⟨w₁, ok, dropped.inv.sound, tokens, fun m found body has => ?_, fun p member => ?_⟩
    · obtain ⟨f₁, inner, f₂, -, group⟩ := dropped.body found has
      exact ⟨_, inner, _, group⟩
    · obtain ⟨f₁, v, m, f₂, rfl, semicolon⟩ := dropped.property member
      exact ⟨by simp [dropped.group.order, Forest.ids], semicolon⟩

/-- A class that is not there fails. -/
theorem Turn.isMissing_of_gone (gone : Gone w.chain cls) :
    FailsWith ChainError.IsMissing (ConstructorDefaults.tidy cls) w := by
  have wf := inv.sound.wellFormed
  have anchored : Anchored w.chain cls := inv.anchored turn.base (by simp)
  refine tidy_fails wf anchored active ?_ ?_ ?_ ?_
  · intro m found body has unit e
    obtain ⟨start, known⟩ := anchored.target m found
    exact statementIndent_isMissing wf start (known body has)
  · intro x member indent e
    obtain ⟨first, last⟩ := anchored.values x member
    exact assignment_isMissing wf (anchored.starts x member) first last
  · refine failsIn_forM (fun w' => w'.chain.Sound ∧ ∀ x ∈ movable cls,
      w'.chain.Known x.1.variableId ∧ w'.chain.Known x.1.terminator) ⟨inv.sound, anchored.ends⟩ ?_ ?_
    · rintro x member w' ⟨sound, ends⟩
      exact dropDefault_isMissing sound (ends x member).1 (ends x member).2
    · rintro x member w' w'' ⟨sound, ends⟩ ok
      obtain ⟨left, mid, right, -, removed⟩ := dropDefault_ok sound.toRoomy (sound.connected _).mp ok
      have known : ∀ {id}, w'.chain.Known id → w''.chain.Known id := by
        intro id
        rw [Chain.known_iff_token?, Chain.known_iff_token?, removed.tokens]
        exact fun known => known
      exact ⟨removed.sound sound, fun y member' => (ends y member').imp known known⟩
  · intro w₁ ok
    obtain ⟨x, member, settled⟩ := gone
    exact (not_settled inv.sound turn.variables_nodup ok member settled).elim

theorem Turn.gone_of_shadowed (shadowed : Shadowed c₀ ds cls) : Gone w.chain cls := by
  obtain ⟨cls', sublist, active', takes⟩ := shadowed
  exact inv.taken cls' (turn.mem_fin sublist) active' cls (by simp) active takes

end Turn

/-! ### All classes -/

theorem Turn.isLimit (turn : Turn c₀ ds fin cls todo) (inv : Inv c₀ ds fin (cls :: todo) w.chain)
    (free : Active cls.members → ¬ Shadowed c₀ ds cls) :
    FailsWith ChainError.IsLimit (ConstructorDefaults.tidy cls) w := by
  by_cases active : Active cls.members
  · refine turn.isLimit_of_standing inv active ?_
    exact (inv.left cls List.mem_cons_self active).resolve_right fun gone => free active gone.2
  · obtain ⟨w', ok, -⟩ := tidy_of_not_active active w
    exact failsIn_of_ok ok

theorem Turn.isMissing_or_isLimit (turn : Turn c₀ ds fin cls todo)
    (inv : Inv c₀ ds fin (cls :: todo) w.chain) :
    FailsWith (fun e => e.IsMissing ∨ e.IsLimit) (ConstructorDefaults.tidy cls) w := by
  by_cases shadowed : Active cls.members ∧ Shadowed c₀ ds cls
  · have gone := turn.gone_of_shadowed inv shadowed.1 shadowed.2
    exact (turn.isMissing_of_gone inv shadowed.1 gone).mono fun e w => .inl
  · exact (turn.isLimit inv (not_and.mp shadowed)).mono fun e w => .inr

/-- If each class fails in its turn in one way, so does the run. -/
theorem run_fails (base : c₀.Sound) (all : ClassDecl.all c₀ = .ok ds)
    (each : ∀ fin cls todo w, Turn c₀ ds fin cls todo → Inv c₀ ds fin (cls :: todo) w.chain →
      FailsWith P (tidy cls) w)
    (split : ds = fin ++ todo) (inv : Inv c₀ ds fin todo w.chain) : FailsWith P (todo.forM tidy) w := by
  induction todo generalizing fin w with
  | nil => exact failsIn_of_ok (a := ()) (forM_nil_ok.mpr rfl)
  | cons cls todo ih =>
    have turn : Turn c₀ ds fin cls todo := ⟨base, all, split⟩
    refine .bind (each fin cls todo w turn inv) fun _ w₁ ok => ?_
    exact ih (by simp [split]) (turn.tidy inv ok)

/-- A run that comes to its end has met no class without its braces. -/
theorem not_shadowed_of_run (base : c₀.Sound) (all : ClassDecl.all c₀ = .ok ds)
    {journal : Array Log.Notice} (ok : ds.forM tidy ⟨c₀, journal⟩ = .ok () w') :
    ∀ cls ∈ ds, Active cls.members → ¬ Shadowed c₀ ds cls := by
  refine (run_induction (P := fun fin _ => ∀ cls ∈ fin, Active cls.members → ¬ Shadowed c₀ ds cls)
    base all ?_ rfl (.start base all) (by simp) ok).2
  intro fin cls todo w w' turn inv holds ok cls' member active shadowed
  rcases List.mem_append.mp member with earlier | here
  · exact holds cls' earlier active shadowed
  · obtain rfl := List.mem_singleton.mp here
    have gone := turn.gone_of_shadowed inv active shadowed
    rcases tidy_ok ok with ⟨idle, -⟩ | ⟨-, w₁, indent, statements, moves⟩
    · exact idle active
    · exact (turn.standing inv active moves.drops).not_gone inv.sound.wellFormed.order_nodup gone

theorem apply_of_all {journal : Array Log.Notice} (all : ClassDecl.all c = .ok ds) :
    rule.apply ⟨c, journal⟩ = ds.forM tidy ⟨c, journal⟩ := by
  show (look ClassDecl.all >>= fun ds => ds.forM tidy) ⟨c, journal⟩ = _
  simp only [bind, EStateM.bind, look, all]

/-- The rule fails at once if the braces of some class are not closed. Otherwise it succeeds or fills
the chain, provided that no class has its braces taken by an earlier one. If one has, the rule fails,
and it finds a neighbor missing unless it fills the chain first. -/
theorem apply_succeeds_unless_shadowed {profile : String} {limits : Limits}
    (valid : limits.validate profile = .ok ()) {source : Text} {c : Chain}
    (read : Chain.ofSource? limits source = some c) (journal : Array Log.Notice) :
    (∃ e, ClassDecl.all c = .error e ∧ e.IsOpenGroup ∧
      rule.apply ⟨c, journal⟩ = .error e ⟨c, journal⟩) ∨
    ∃ ds, ClassDecl.all c = .ok ds ∧
      ((∀ cls ∈ ds, Active cls.members → ¬ Shadowed c ds cls) →
        (∃ w, rule.apply ⟨c, journal⟩ = .ok () w) ∨
        ∃ e w, rule.apply ⟨c, journal⟩ = .error e w ∧ e.IsLimit) ∧
      ∀ cls ∈ ds, Active cls.members → Shadowed c ds cls →
        ∃ e w, rule.apply ⟨c, journal⟩ = .error e w ∧ (e.IsMissing ∨ e.IsLimit) := by
  have base := Chain.sound_of_source valid read
  cases all : ClassDecl.all c with
  | error e =>
    refine .inl ⟨e, rfl, ClassDecl.all_isOpenGroup base.wellFormed all, ?_⟩
    show (look ClassDecl.all >>= fun ds => ds.forM tidy) ⟨c, journal⟩ = _
    simp only [bind, EStateM.bind, look, all]
  | ok ds =>
    refine .inr ⟨ds, rfl, fun free => ?_, fun cls member active shadowed => ?_⟩
    · rw [apply_of_all all]
      have fails : FailsWith ChainError.IsLimit (ds.forM tidy) ⟨c, journal⟩ :=
        run_fails base all (fun fin cls todo w turn inv => turn.isLimit inv (free cls turn.mem)) rfl
          (.start base all)
      exact fails.ok_or_error.imp_left fun ⟨_, w, ok⟩ => ⟨w, ok⟩
    · rw [apply_of_all all]
      have fails : FailsWith (fun e => e.IsMissing ∨ e.IsLimit) (ds.forM tidy) ⟨c, journal⟩ :=
        run_fails base all (fun fin cls todo w turn inv => turn.isMissing_or_isLimit inv) rfl
          (.start base all)
      refine fails.ok_or_error.resolve_left ?_
      rintro ⟨⟨⟩, w, ok⟩
      exact not_shadowed_of_run base all ok cls member active shadowed

/-- Two words `class` in front of the same braces. -/
theorem apply_fails_twice_class :
    Limits.development.validate "development" = .ok () ∧ ∃ c ds cls,
      Chain.ofSource? .development "<?php class class{$x=1;}".toList = some c ∧
      ClassDecl.all c = .ok ds ∧ cls ∈ ds ∧ Active cls.members ∧ Shadowed c ds cls ∧
      ∃ e w, rule.apply ⟨c, #[]⟩ = .error e w ∧ (e.IsMissing ∨ e.IsLimit) := by
  have valid : Limits.development.validate "development" = .ok () := by decide
  have checked : (Chain.ofSource? .development "<?php class class{$x=1;}".toList).any (fun c =>
      (ClassDecl.all c).toOption.any fun ds => ds.length == 2 && ds.all fun cls =>
        cls.body.opener == ⟨5⟩ && !(movable cls).isEmpty && cls.constructor?.isNone) = true := by
    decide +kernel
  obtain ⟨c, read, checked⟩ := (Option.any_eq_true ..).mp checked
  obtain ⟨ds, all, checked⟩ := (Option.any_eq_true ..).mp checked
  have all : ClassDecl.all c = .ok ds := Outcome.toOption_some.mp all
  obtain ⟨two, each⟩ := Bool.and_eq_true_iff.mp checked
  obtain ⟨first, second, rfl⟩ := List.length_eq_two.mp (beq_iff_eq.mp two)
  simp only [List.all_cons, List.all_nil, Bool.and_true, Bool.and_eq_true, beq_iff_eq] at each
  obtain ⟨⟨⟨opener, some⟩, none⟩, ⟨opener', some'⟩, none'⟩ := each
  have active : Active first.members := active_iff.mpr (by simp_all)
  have active' : Active second.members := active_iff.mpr (by simp_all)
  have shadowed : Shadowed c [first, second] second :=
    ⟨first, .refl _, active, .inl (opener.trans opener'.symm)⟩
  refine ⟨valid, c, [first, second], second, read, all, by simp, active', shadowed, ?_⟩
  rcases apply_succeeds_unless_shadowed valid read #[] with ⟨e, failed, -⟩ | ⟨ds, found, -, fails⟩
  · rw [all] at failed
    cases failed
  · rw [all] at found
    obtain rfl := Except.ok.inj found
    exact fails second (by simp) active' shadowed

end ConstructorDefaults

end Restyle
