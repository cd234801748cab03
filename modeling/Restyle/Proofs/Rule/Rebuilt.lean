import Restyle.Proofs.Rule.Run

/-!
# The class that is left

When the defaults of a class have moved, the word `class` still declares it. Its braces are where
they were, its members are what they were but for the defaults (`Keeps`), and there is a constructor
after the last property if there was none (`Rebuilt`). So nothing is left to move in it.
-/

namespace Restyle.ConstructorDefaults
open RuleM
open Chain (Inserted)
open Forest (Hole)
open ClassDecl (ClassAt membersOf ofClassAt outline)
variable {c d : Chain} {ds : List ClassDecl} {cls cls' : ClassDecl} {w w₁ w' : Workspace}
  {l r left right before header rest : List NodeId} {e k b : NodeId} {inside f f' : Forest}
  {m m' : Member} {ms ms' : List Member} {xs : List (Property × Initializer)} {indent : Text}
  {statements : List (List Token)}

/-! ### Members without their defaults -/

/-- What a member turns into: a default that has to move is gone, and the braces of a method may hold
something else. -/
inductive Keeps : Member → Member → Prop
  | moved (p : Property) (value : Initializer) (has : p.value = some value)
    (own : p.isStatic = false) (proper : value.isNull = false) :
    Keeps (.property p) (.property { p with value := none })
  | property (p : Property) (stays : ∀ value ∈ p.value, p.isStatic = true ∨ value.isNull = true) :
    Keeps (.property p) (.property p)
  | method (m m' : Method) (start : m'.start = m.start) (name : m'.name = m.name)
    (body : m'.body.map (fun g => (g.opener, g.closer)) = m.body.map fun g => (g.opener, g.closer)) :
    Keeps (.method m) (.method m')
  | other : Keeps .other .other

theorem default?_eq_none_iff {p : Property} : default? (.property p) = none ↔
    ∀ value ∈ p.value, p.isStatic = true ∨ value.isNull = true := by
  cases has : p.value with
  | none => simp [default?, has]
  | some value => cases own : p.isStatic <;> simp [default?, has, own]

theorem Keeps.plain (keeps : Keeps m m') : default? m' = none := by
  cases keeps with
  | moved p value has own proper => rfl
  | property p stays => exact default?_eq_none_iff.mpr stays
  | method m m' start name body => rfl
  | other => rfl

theorem defaults_of_keeps (keeps : List.Forall₂ Keeps ms ms') : ms'.filterMap default? = [] := by
  induction keeps with
  | nil => rfl
  | cons here rest ih => rw [List.filterMap_cons_none here.plain, ih]

def lightened (m : Member) : Member := if (default? m).isSome then bare m else m

theorem lightened_of_plain (plain : default? m = none) : lightened m = m := by
  simp [lightened, plain]

theorem map_lightened_of_plain (plain : ms.filterMap default? = []) : ms.map lightened = ms := by
  refine (List.map_congr_left fun m member => ?_).trans (List.map_id _)
  exact lightened_of_plain (List.filterMap_eq_nil_iff.mp plain m member)

theorem bare_lightened (m : Member) : bare (lightened m) = bare m := by
  unfold lightened
  split
  · cases m <;> rfl
  · rfl

theorem exists_lightened (p : Property) : ∃ q, lightened (.property p) = .property q ∧
    q.terminator = p.terminator ∧ Keeps (.property p) (.property q) := by
  by_cases stays : ∀ value ∈ p.value, p.isStatic = true ∨ value.isNull = true
  · exact ⟨p, lightened_of_plain (default?_eq_none_iff.mpr stays), rfl, .property p stays⟩
  · push Not at stays
    obtain ⟨value, has, own, proper⟩ := stays
    have moves : default? (.property p) = some (p, value) := by
      simp [default?, Option.mem_def.mp has, own, proper]
    exact ⟨{ p with value := none }, by simp [lightened, moves, bare], rfl,
      .moved p value has (Bool.eq_false_iff.mpr own) (Bool.eq_false_iff.mpr proper)⟩

theorem keeps_of_rename (same : m'.rename id = (lightened m).rename id) : Keeps m m' := by
  cases m with
  | property p =>
    obtain ⟨q, light, -, keeps⟩ := exists_lightened p
    rw [light, Member.rename, rename_id] at same
    rw [eq_property_of_rename same]
    exact keeps
  | method m =>
    rw [lightened_of_plain rfl] at same
    cases m' with
    | property p => cases same
    | other => cases same
    | method m' =>
      have fields := Member.method.inj same
      have start : (m'.rename id).start = (m.rename id).start := congrArg Method.start fields
      have name : (m'.rename id).name = (m.rename id).name := congrArg Method.name fields
      have body : m'.body.map (·.rename id) = m.body.map (·.rename id) := congrArg Method.body fields
      have ends := congrArg (Option.map fun g : Group => (g.opener, g.closer)) body
      rw [Option.map_map, Option.map_map] at ends
      exact .method m m' start name ends
  | other =>
    rw [lightened_of_plain rfl] at same
    cases m' with
    | property p => cases same
    | method m => cases same
    | other => exact .other

def remains (ms : List Member) : List Member := ms.map fun m => (lightened m).rename id

theorem forall₂_keeps (same : ms'.map (·.rename id) = remains ms) : List.Forall₂ Keeps ms ms' := by
  induction ms generalizing ms' with
  | nil =>
    obtain rfl := List.map_eq_nil_iff.mp same
    exact .nil
  | cons m ms ih =>
    obtain ⟨m', tail, rfl, here, behind⟩ := List.map_eq_cons_iff.mp same
    exact .cons (keeps_of_rename here) (ih behind)

theorem Layout.members_eq (layout : Layout c f xs f')
    (defaults : (membersOf c f).filterMap default? = xs) :
    membersOf c f' = (membersOf c f).map lightened := by
  induction layout with
  | nil f => rw [map_lightened_of_plain defaults]
  | cons g lead core trail f f' x xs done default plain moves here without rest ih =>
    rw [cut default.semicolon, here] at defaults
    have behind : (membersOf c f).filterMap default? = xs := by simpa [plain, moves] using defaults
    have short := cut (c := c) (g := g) (f := f') (v := x.1.variableId) (m := .nil) default.semicolon
    have light : lightened (.property x.1) = .property { x.1 with value := none } := by
      simp [lightened, moves, bare]
    simp only [Forest.nil_append] at short
    rw [short, without, ih behind, cut default.semicolon, here, List.map_append, List.map_append,
      map_lightened_of_plain plain, List.map_singleton, light]

/-! ### The body without its defaults -/

/-- The class without its defaults, in braces that are where they were. -/
structure Lightened (c : Chain) (cls : ClassDecl) (d : Chain) (l : List NodeId) (inside : Forest)
    (r : List NodeId) : Prop where
  roomy : d.Roomy
  tokens : ∀ id, d.token? id = c.token? id
  group : GroupAt d l cls.body.opener inside cls.body.closer r
  body : outline d inside = remains cls.members

theorem exists_lightened_body (roomy : w.chain.Roomy)
    (group : GroupAt w.chain l cls.body.opener inside cls.body.closer r)
    (members : cls.members = membersOf w.chain inside)
    (ok : (movable cls).forM (fun x => dropDefault cls x.1) w = .ok () w') :
    ∃ inside', Lightened w.chain cls w'.chain l inside' r := by
  have defaults : (membersOf w.chain inside).filterMap default? = movable cls := by
    rw [← members, movable_eq]
  have all : (membersOf w.chain inside).filterMap default? = movable cls ++ [] := by
    rw [defaults, List.append_nil]
  obtain ⟨inside', layout⟩ := exists_layout group.fits.2.1 all
  have order : w.chain.order = (l ++ [cls.body.opener]) ++ (inside.ids ++ cls.body.closer :: r) := by
    simp [group.order]
  obtain ⟨roomy', -, order', tokens⟩ := layout.drops roomy order ok
  refine ⟨inside', roomy', tokens, ⟨by simp [order'], ?_⟩, ?_⟩
  · rw [Forest.fits_congr fun id _ => tokens id]
    exact ⟨group.fits.1, layout.fits group.fits.2.1, trivial⟩
  · rw [ClassDecl.outline_congr fun id _ => tokens id, outline_eq, layout.members_eq defaults, members,
      List.map_map]
    rfl

theorem Lightened.members (light : Lightened c cls d l inside r) :
    (outline d inside).map bare =
      (cls.members.map (·.rename id) ++ ([] : List Member)).map bare := by
  rw [light.body, remains, List.append_nil, List.map_map, List.map_map]
  refine List.map_congr_left fun m _ => ?_
  show bare ((lightened m).rename id) = bare (m.rename id)
  rw [bare_rename, bare_rename, bare_lightened]

theorem Lightened.groupAt_body (light : Lightened c cls d l inside r) {m : Method} {body : Group}
    (found : m ∈ cls.constructor?) (has : body ∈ m.body) :
    ∃ l inner r, GroupAt d l body.opener inner body.closer r := by
  obtain ⟨f₁, inner, f₂, -, place⟩ := groupAt_of_constructor light.group light.members found has
  exact ⟨_, inner, _, place⟩

theorem Lightened.semicolon (light : Lightened c cls d l inside r) {p : Property}
    (member : p ∈ cls.properties) :
    p.terminator ∈ d.order ∧ d.tokenIs (·.isPunctuation ';') p.terminator = true := by
  obtain ⟨f₁, v, m, f₂, rfl, semicolon⟩ := semicolon_of_property light.group light.members member
  exact ⟨by simp [light.group.order, Forest.ids], semicolon⟩

theorem Lightened.tokenIs (light : Lightened c cls d l inside r) (p : Token → Bool) :
    d.tokenIs p = c.tokenIs p := by
  funext id
  exact Chain.tokenIs_eq_of_token? (light.tokens id) p

theorem Lightened.known (light : Lightened c cls d l inside r) {id : NodeId} :
    d.Known id ↔ c.Known id := by
  rw [Chain.known_iff_token?, Chain.known_iff_token?, light.tokens]

/-! ### The body with the statements -/

/-- Something else is in the braces of the class, and all in front of it is as it was. -/
structure Refilled (c : Chain) (cls : ClassDecl) (d : Chain) (l : List NodeId) (inside : Forest)
    (r : List NodeId) : Prop where
  wellFormed : d.WellFormed
  tokens : ∀ id ∈ l ++ [cls.body.opener], d.token? id = c.token? id
  group : GroupAt d l cls.body.opener inside cls.body.closer r

theorem Lightened.refilled {hole : Hole} {new : Forest} {tokens : List Token}
    (light : Lightened c cls w.chain l (hole.fill .nil) r)
    (inserted : Inserted w.chain w'.chain (l ++ cls.body.opener :: hole.idsBefore) tokens
      (hole.idsAfter ++ cls.body.closer :: r) new.ids) (fits : new.Fits w'.chain) :
    Refilled c cls w'.chain l (hole.fill new) r := by
  have wf := light.roomy.wellFormed
  refine ⟨inserted.roomy.wellFormed, fun id member => ?_,
    (swap_of_inserted wf inserted fits).refill light.group⟩
  have inside : id ∈ w.chain.order := by
    simp only [light.group.order, List.mem_append, List.mem_cons, List.not_mem_nil, or_false] at member ⊢
    tauto
  exact (inserted.same wf inside).trans (light.tokens id)

theorem Lightened.addStatements (light : Lightened c cls w.chain l inside r) {m : Method} {body : Group}
    (found : m ∈ cls.constructor?) (has : body ∈ m.body) (some : statements ≠ [])
    (each : ∀ s ∈ statements, IsStatement s)
    (ok : ConstructorDefaults.addStatements m.start body indent statements w = .ok () w') :
    ∃ inside', Refilled c cls w'.chain l inside' r ∧
      outline w'.chain inside' = remains cls.members := by
  have wf := light.roomy.wellFormed
  obtain ⟨f₁, inner, f₂, rfl, group⟩ := groupAt_of_constructor light.group light.members found has
  have order : w.chain.order = ((l ++ cls.body.opener :: f₁.ids) ++ body.opener :: inner.ids) ++
      body.closer :: (f₂.ids ++ cls.body.closer :: r) := by simp [group.order]
  obtain ⟨init, spaces, line, ids, split, blank, lines, -, inserted⟩ :=
    addStatements_ok light.roomy order ok
  obtain ⟨h, rfl, rfl⟩ := exists_spaces wf group split blank
  obtain ⟨new, rfl, fits, -⟩ := exists_statements some each lines inserted.tokens
  let hole : Hole := .inside f₁ body.opener (.top h (.atoms spaces)) body.closer f₂
  have same : f₁ ++ .group body.opener (h ++ .atoms spaces) body.closer f₂ = hole.fill .nil := by
    simp [hole, Hole.fill]
  rw [same] at light
  refine ⟨hole.fill new, light.refilled (by simpa [hole, Hole.idsBefore, Hole.idsAfter,
    Forest.ids_atoms] using inserted) fits, ?_⟩
  rw [← light.body]
  refine ClassDecl.outline_inside fun id member => inserted.same wf ?_
  simp only [group.order, List.mem_append, List.mem_cons] at member ⊢
  tauto

theorem exists_split_of_last {p : Property} (last : cls.properties.getLast? = some p) :
    ∃ front back, cls.members = front ++ .property p :: back ∧
      back.filterMap Member.property? = [] := by
  obtain ⟨init, same⟩ := List.getLast?_eq_some_iff.mp last
  obtain ⟨front, tail, split, -, behind⟩ := List.filterMap_eq_append_iff.mp same
  obtain ⟨fillers, m, back, rfl, -, is, none⟩ := List.filterMap_eq_cons_iff.mp behind
  obtain rfl := eq_property_of_property? is
  exact ⟨front ++ fillers, back, by simp [split], none⟩

/-- The place of a property in the body, with what comes before and after it. -/
theorem Lightened.exists_property (light : Lightened c cls d l inside r) {p : Property}
    {front back : List Member} (split : cls.members = front ++ .property p :: back) :
    ∃ f₁ v m f₂, inside = f₁ ++ .atom v (m ++ .atom p.terminator f₂) ∧
      d.tokenIs (·.isPunctuation ';') p.terminator = true ∧
      outline d (f₁ ++ .atom v (m ++ .atom p.terminator .nil)) = remains (front ++ [.property p]) ∧
      outline d f₂ = remains back := by
  have outlines := light.body
  obtain ⟨q, isLight, ends, -⟩ := exists_lightened p
  have here : (lightened (.property p)).rename id = .property q := by
    rw [isLight, Member.rename, rename_id]
  rw [split, remains, List.map_append, List.map_cons, here] at outlines
  obtain ⟨done, rest, members, doneOf, restOf⟩ := outline_property outlines
  obtain ⟨f₁, m, f₂, rfl, -, semicolon, -, -, first, -, behind⟩ :=
    ClassDecl.exists_property light.group.fits.2.1 members
  rw [ends] at semicolon first ⊢
  refine ⟨f₁, q.variableId, m, f₂, rfl, semicolon, ?_, ?_⟩
  · rw [outline_eq, first, List.map_append, doneOf, remains, List.map_append, List.map_singleton,
      List.map_singleton, here, Member.rename, rename_id]
  · rw [outline_eq, behind]
    exact restOf

theorem Lightened.addConstructor (light : Lightened c cls w.chain l inside r) {p : Property}
    (last : cls.properties.getLast? = some p) {front back : List Member}
    (split : cls.members = front ++ .property p :: back) (each : ∀ s ∈ statements, IsStatement s)
    {propertyIndent : Text}
    (ok : ConstructorDefaults.addConstructor cls propertyIndent indent statements w = .ok () w') :
    ∃ inside' m, Refilled c cls w'.chain l inside' r ∧
      outline w'.chain inside' = remains (front ++ [.property p]) ++ .method m :: remains back ∧
      m.isConstructor = true ∧ m.body.isSome = true := by
  have wf := light.roomy.wellFormed
  have group := light.group
  obtain ⟨f₁, v, m, f₂, rfl, semicolon, before, after⟩ := light.exists_property split
  have order : w.chain.order = (l ++ cls.body.opener :: (f₁.ids ++ v :: m.ids)) ++
      p.terminator :: (f₂.ids ++ cls.body.closer :: r) := by simp [group.order, Forest.ids]
  obtain ⟨fillers, tail, separator, ids, line, trails, -, inserted⟩ :=
    addConstructor_ok light.roomy last semicolon order ok
  have plain := trails.plain
  obtain ⟨h, rfl, rfl⟩ := exists_fillers wf group line plain
  obtain ⟨new, rfl, method⟩ :=
    exists_method (forall_of_constructor cls.hasParent isStatement_parentCall each) inserted.tokens
  let hole : Hole := .top (f₁ ++ .atom v (m ++ .atom p.terminator (.atoms fillers))) h
  have empty : f₁ ++ .atom v (m ++ .atom p.terminator (.atoms fillers ++ h)) = hole.fill .nil := by
    simp [hole, Hole.fill]
  have full : hole.fill new =
      f₁ ++ .atom v (m ++ .atom p.terminator (.atoms fillers ++ (new ++ h))) := by
    simp [hole, Hole.fill]
  have place : (l ++ cls.body.opener :: (f₁.ids ++ v :: m.ids)) ++ p.terminator :: fillers =
      l ++ cls.body.opener :: hole.idsBefore := by
    simp [hole, Hole.idsBefore, Forest.ids, Forest.ids_atoms]
  rw [empty] at light
  rw [place] at inserted
  obtain ⟨m', member, constructs, body⟩ := method.member
  refine ⟨hole.fill new, m'.rename id, light.refilled inserted method.fits, ?_, constructs,
    by simp [Method.rename, body]⟩
  have same : ∀ x ∈ (f₁ ++ .atom v (m ++ .atom p.terminator (.atoms fillers ++ h))).ids,
      w'.chain.token? x = w.chain.token? x := by
    intro x inside
    refine inserted.same wf ?_
    rw [group.order]
    exact List.mem_append_right _ (List.mem_cons_of_mem _ (List.mem_append_left _ inside))
  rw [outline_eq, (ClassDecl.membersOf_fillers plain).2, ← outline_eq] at after
  rw [full, outline_of_constructor semicolon plain same method, before, after, outline_eq, member]
  rfl

/-! ### The class as it is read -/

/-- What is read when the defaults of a class have moved: the members without those defaults, and a
constructor after the last property if there was none. -/
structure Rebuilt (cls cls' : ClassDecl) : Prop where
  hasParent : cls'.hasParent = cls.hasParent
  opener : cls'.body.opener = cls.body.opener
  closer : cls'.body.closer = cls.body.closer
  members : cls.constructor?.isSome = true → List.Forall₂ Keeps cls.members cls'.members
  added : cls.constructor? = none → ∃ front p back front' m back',
    cls.members = front ++ .property p :: back ∧ back.filterMap Member.property? = [] ∧
    cls'.members = front' ++ .method m :: back' ∧ List.Forall₂ Keeps (front ++ [.property p]) front' ∧
    List.Forall₂ Keeps back back' ∧ m.isConstructor = true ∧ m.body.isSome = true

theorem Rebuilt.settled (rebuilt : Rebuilt cls cls') : movable cls' = [] := by
  rw [movable_eq]
  cases found : cls.constructor? with
  | some m => exact defaults_of_keeps (rebuilt.members (by simp [found]))
  | none =>
    obtain ⟨front, p, back, front', m, back', -, -, members, before, after, -⟩ := rebuilt.added found
    rw [members, List.filterMap_append, defaults_of_keeps before, List.filterMap_cons_none rfl,
      defaults_of_keeps after, List.nil_append]

theorem tidy_of_settled (settled : movable cls = []) (w : Workspace) : tidy cls w = .ok () w := by
  unfold tidy
  simp only [settled, List.head?_nil]
  rfl

theorem Refilled.classAt (at' : ClassAt c before k header b inside e rest)
    (refilled : Refilled c (ofClassAt c k header b inside e) d (before ++ k :: header) f rest) :
    ClassAt d before k header b f e rest ∧
      (ofClassAt d k header b f e).hasParent = (ofClassAt c k header b inside e).hasParent := by
  have same : ∀ id ∈ before ++ k :: (header ++ [b]), ∀ p, d.tokenIs p id = c.tokenIs p id :=
    fun id member => Chain.tokenIs_eq_of_token? (refilled.tokens id (by
      simpa [ofClassAt, Group.opener] using member))
  refine ⟨⟨?_, ?_, ?_, fun x member => ?_, ?_, refilled.group.fits⟩, ?_⟩
  · simpa [ofClassAt, Group.opener, Group.closer] using refilled.group.order
  · rw [same k (by simp)]
    exact at'.keyword
  · rw [ClassDecl.declaredAfter_congr fun id member => refilled.tokens id (by simp [member])]
    exact at'.declared
  · rw [same x (by simp [member])]
    exact at'.quiet x member
  · rw [same b (by simp)]
    exact at'.brace
  · rw [Bool.eq_iff_iff]
    simp only [ofClassAt, List.any_eq_true]
    exact exists_congr fun x => and_congr_right fun member => by rw [same x (by simp [member])]

theorem ReadFrom.rebuilt (read : ReadFrom c cls) (roomy : c.Roomy) (active : Active cls.members)
    {journal : Array Log.Notice} (moves : Moves cls ⟨c, journal⟩ w₁ w' indent statements) :
    ∃ cls', ClassDecl.startingAt? w'.chain cls.keyword = .ok (some cls') ∧ Rebuilt cls cls' := by
  have each : ∀ s ∈ statements, IsStatement s := by
    intro s member
    obtain ⟨x, among, ok⟩ := moves.exists_default member
    obtain ⟨core, fits, span⟩ := read.span roomy.wellFormed among
    exact isStatement_assignment ok span fits
  obtain ⟨before, k, header, b, inside, e, rest, at', rfl⟩ := read
  have group : GroupAt c (before ++ k :: header) b inside e rest := ⟨by simp [at'.order], at'.fits⟩
  obtain ⟨inside', light⟩ := exists_lightened_body (w := ⟨c, journal⟩) roomy group rfl moves.drops
  rcases moves.adds with ⟨none, propertyIndent, -, adds⟩ | ⟨m, found, body, has, adds⟩
  · obtain ⟨p, last, -⟩ := exists_last_property active
    obtain ⟨front, back, split, quiet⟩ := exists_split_of_last last
    obtain ⟨inside'', m, refilled, outlines, constructs, body⟩ :=
      light.addConstructor last split each adds
    obtain ⟨found, parent⟩ := refilled.classAt at'
    refine ⟨_, ClassDecl.startingAt?_of_classAt refilled.wellFormed found, parent, rfl, rfl, ?_, fun _ => ?_⟩
    · simp [none]
    · obtain ⟨front', tail, members, before, behind⟩ := List.map_eq_append_iff.mp outlines
      obtain ⟨m', back', rfl, is, after⟩ := List.map_eq_cons_iff.mp behind
      cases m' with
      | property p => cases is
      | other => cases is
      | method m' =>
        obtain rfl : m'.rename id = m := Member.method.inj is
        exact ⟨front, p, back, front', m', back', split, quiet, members, forall₂_keeps before,
          forall₂_keeps after, constructs, by simpa [Method.rename] using body⟩
  · obtain ⟨inside'', refilled, outlines⟩ :=
      light.addStatements found has (moves.ne_nil active) each adds
    obtain ⟨read, parent⟩ := refilled.classAt at'
    refine ⟨_, ClassDecl.startingAt?_of_classAt refilled.wellFormed read, parent, rfl, rfl,
      fun _ => forall₂_keeps outlines, fun none => ?_⟩
    rw [none] at found
    cases found

/-- A class whose defaults were moved is read again at its keyword, without those defaults, with its
other members and with a constructor. The rule leaves it alone then. -/
theorem tidied_class_rebuilt {profile : String} {limits : Limits}
    (valid : limits.validate profile = .ok ()) (capacity : c.capacity = limits.nodes)
    (wf : c.WellFormed) (all : ClassDecl.all c = .ok ds) (member : cls ∈ ds)
    (nonempty : movable cls ≠ []) (bodies : ∀ m ∈ cls.constructor?, m.body.isSome = true)
    {journal : Array Log.Notice} (ok : tidy cls ⟨c, journal⟩ = .ok () w) :
    ∃ cls', ClassDecl.startingAt? w.chain cls.keyword = .ok (some cls') ∧ Rebuilt cls cls' ∧
      tidy cls' w = .ok () w := by
  obtain ⟨narrow, -⟩ := Limits.nodes_lt_of_validate valid
  have roomy : c.Roomy := ⟨wf, by omega⟩
  have read : ReadFrom c cls := (ClassDecl.mem_all wf all).mp member
  have active : Active cls.members := active_iff.mpr ⟨nonempty, bodies⟩
  rcases tidy_ok ok with ⟨idle, -⟩ | ⟨-, w₁, indent, statements, moves⟩
  · exact (idle active).elim
  · obtain ⟨cls', found, rebuilt⟩ := read.rebuilt roomy active moves
    exact ⟨cls', found, rebuilt, tidy_of_settled rebuilt.settled w⟩

/-- The new constructor comes between a static property and a method. -/
theorem tidied_class_rebuilt_before_method :
    Limits.development.validate "development" = .ok () ∧ ∃ c ds cls w cls',
      Chain.ofSource? .development "<?php class A{$x=1;static $s=2;function f(){}}".toList = some c ∧
      c.WellFormed ∧ ClassDecl.all c = .ok ds ∧ cls ∈ ds ∧ (movable cls).length = 1 ∧
      cls.constructor? = none ∧ tidy cls ⟨c, #[]⟩ = .ok () w ∧
      ClassDecl.startingAt? w.chain cls.keyword = .ok (some cls') ∧ Rebuilt cls cls' ∧
      tidy cls' w = .ok () w := by
  have valid : Limits.development.validate "development" = .ok () := by decide
  have checked : (Chain.ofSource? .development
      "<?php class A{$x=1;static $s=2;function f(){}}".toList).any (fun c =>
        (ClassDecl.all c).toOption.any fun ds => ds.any fun cls => (movable cls).length == 1 &&
          cls.constructor?.isNone && (after? (tidy cls) ⟨c, #[]⟩).isSome) = true := by decide +kernel
  obtain ⟨c, read, checked⟩ := (Option.any_eq_true ..).mp checked
  obtain ⟨ds, found, checked⟩ := (Option.any_eq_true ..).mp checked
  obtain ⟨cls, member, checked⟩ := List.any_eq_true.mp checked
  simp only [Bool.and_eq_true, beq_iff_eq, Option.isNone_iff_eq_none] at checked
  obtain ⟨⟨one, none⟩, runs⟩ := checked
  obtain ⟨w, runs⟩ := Option.isSome_iff_exists.mp runs
  have all : ClassDecl.all c = .ok ds := Outcome.toOption_some.mp found
  have wf := (Chain.sound_of_source valid read).wellFormed
  obtain ⟨_, _, -, -, -, threaded⟩ := Chain.exists_threaded valid read
  have nonempty : movable cls ≠ [] := by
    intro empty
    simp [empty] at one
  have done := after?_some.mp runs
  obtain ⟨cls', again, rebuilt, idle⟩ :=
    tidied_class_rebuilt valid threaded.capacity wf all member nonempty (by simp [none]) done
  exact ⟨valid, c, ds, cls, w, cls', read, wf, all, member, one, none, done, again, rebuilt, idle⟩

end Restyle.ConstructorDefaults
