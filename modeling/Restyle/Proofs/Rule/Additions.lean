import Restyle.Proofs.Rule.Statements

/-!
# Putting the statements in

The statements go to the end of the constructor (`Turn.addStatements`), or a new constructor is
made for them (`Turn.addConstructor`). Either way the class is done then.
-/

namespace Restyle.ConstructorDefaults
open RuleM
open Chain (Inserted)
open ClassDecl (Guarded HeaderAt Sealed Walks membersOf outline)
variable {c₀ c d : Chain} {ds fin todo : List ClassDecl} {cls : ClassDecl}
  {l r left right ids : List NodeId} {o e k b : NodeId} {f₁ f₂ new inside : Forest}
  {more : List Member} {tokens : List Token} {w w' : Workspace}

/-! ### New nodes -/

theorem swap_of_inserted (wf : c.WellFormed) (inserted : Inserted c d left tokens right new.ids)
    (fits : new.Fits d) : Swap c d left .nil new right where
  order := by simp [inserted.before, Forest.ids]
  order' := inserted.order
  fits := trivial
  fits' := fits
  same := fun _ member => inserted.same wf (inserted.before ▸ member)

theorem sealed_of_tokens (tokensOf : ids.map d.token? = tokens.map some) {init back : List Token}
    (split : tokens = init ++ mark ';' :: back)
    (plain : ∀ t ∈ back, t.isKeyword "class" = false) : Sealed d ids := by
  rw [split, List.map_append, List.map_cons] at tokensOf
  obtain ⟨a, tail, rfl, -, tailOf⟩ := List.map_eq_append_iff.mp tokensOf
  obtain ⟨s, z, rfl, semicolon, backOf⟩ := List.map_eq_cons_iff.mp tailOf
  refine ⟨a, s, z, rfl, ?_, fun y member => ?_⟩
  · rw [Chain.tokenIs_of_token? semicolon]
    decide
  · have inside : d.token? y ∈ back.map some := backOf ▸ List.mem_map_of_mem member
    obtain ⟨t, among, token⟩ := List.mem_map.mp inside
    rw [Chain.tokenIs_of_token? token.symm]
    exact plain t among

/-- A header that ends among new nodes starts among them or comes from before. -/
theorem start_of_header {before header rest : List NodeId} (nodup : d.order.Nodup)
    (order : d.order = left ++ (ids ++ right)) (at' : HeaderAt d before k header b rest)
    (ends : b ∈ ids) :
    k ∈ ids ∨ ∃ h₁ n₁, left = before ++ k :: h₁ ∧ header = h₁ ++ n₁ := by
  obtain ⟨n₁, n₂, rfl⟩ := List.append_of_mem ends
  have place : d.order = (left ++ n₁) ++ b :: (n₂ ++ right) := by simp [order]
  have place' : d.order = (before ++ k :: header) ++ b :: rest := by simp [at'.order]
  obtain ⟨same, -⟩ := split_unique nodup place place'
  rcases List.append_eq_append_iff.mp same with ⟨y, -, tail⟩ | ⟨y, front, tail⟩
  · exact .inl (by simp [tail])
  · cases y with
    | nil => exact .inl (by simp [← show k :: header = n₁ from tail])
    | cons first y =>
      obtain ⟨rfl, behind⟩ := List.cons.inj tail
      exact .inr ⟨y, n₁, front, behind⟩

/-- What is put in is allowed if headers that run into it are exposed. -/
theorem Turn.allowed (turn : Turn c₀ ds fin cls todo) (inv : Inv c₀ ds fin todo c)
    (edited : Edited c d l o f₁ .nil new f₂ e r) (inserted : Inserted c d left tokens right new.ids)
    (traced : Traced (IsCopy c₀ cls) tokens)
    (values : ∀ p ∈ movable cls, ∀ lead core trail y₀ z₀, ValueAt c₀ p lead core trail y₀ z₀ →
      ∀ x ∈ core.ids, x ∉ c.order)
    (known : c₀.Known o)
    (concerns : (∃ e, Target ds o e) ∨ ∃ cls ∈ ds, Active cls.members ∧ cls.body.opener = o)
    (starts : ∀ before k header b rest, HeaderAt d before k header b rest → b ∈ new.ids →
      k ∈ new.ids ∨ Exposed c₀ ds k)
    (done : (∀ e, ¬ Target ds o e) → (outline c (f₁ ++ f₂)).filterMap default? = [] →
      (outline d (f₁ ++ (new ++ f₂))).filterMap default? = [])
    (standing : ∀ cls ∈ todo, Active cls.members → cls.body.opener = o → Standing c₀ c ds cls →
      Standing c₀ d ds cls)
    (place : ∀ cls ∈ todo, Active cls.members → cls.body.opener ≠ o → Standing c₀ c ds cls →
      ∀ x ∈ movable cls, ∀ y z, ∀ m : Forest,
        c₀.order = y ++ x.1.variableId :: (m.ids ++ x.1.terminator :: z) → o ∉ m.ids) :
    Allowed c₀ ds todo c d l o f₁ .nil new f₂ e r where
  toEdited := edited
  known := known
  concerns := concerns
  enters := by
    intro before k header b rest at' ends old
    rcases starts before k header b rest at' ends with inside | exposed
    · exact (edited.fresh k inside (inv.known old)).elim
    · exact exposed
  done := done
  left := fun cls later active same stands => .inl (standing cls later active same stands)
  takes := by simp [Forest.ids]
  place := place
  copies := by
    intro before k header b rest at' ends unknown l' inside' e' r' group active
    rcases starts before k header b rest at' ends with start | ⟨old, -⟩
    · exact turn.copied_gone inv inserted traced values at' start group active
    · exact (unknown (turn.base.wellFormed.known_of_mem_order old)).elim

/-! ### The body of a constructor -/

theorem groupAt_of_method (group : GroupAt c l o inside e r) {m : Method} {body : Group}
    (member : Member.method m ∈ membersOf c inside) (has : m.body = some body) :
    ∃ f₁ inner f₂, inside = f₁ ++ .group body.opener inner body.closer f₂ ∧
      GroupAt c (l ++ o :: f₁.ids) body.opener inner body.closer (f₂.ids ++ e :: r) := by
  obtain ⟨done, rest, split⟩ := List.append_of_mem member
  obtain ⟨f₁, inner, f₂, rfl, -⟩ := ClassDecl.exists_body split has
  have fits := group.fits.2.1
  simp only [Forest.fits_append, Forest.Fits] at fits
  exact ⟨f₁, inner, f₂, rfl, by simp [group.order, Forest.ids], fits.2.1, fits.2.2.1, trivial⟩

theorem method_of_constructor {m : Method} (found : m ∈ cls.constructor?) :
    Member.method m ∈ cls.members := by
  obtain ⟨a, member, is⟩ := List.mem_filterMap.mp (List.mem_of_find?_eq_some found)
  cases a with
  | property p => simp [Member.method?] at is
  | other => simp [Member.method?] at is
  | method m' =>
    rw [← Option.some.inj is]
    exact member

theorem groupAt_of_constructor (group : GroupAt c l o inside e r)
    (members : (outline c inside).map bare = (cls.members.map (·.rename id) ++ more).map bare)
    {m : Method} {body : Group} (found : m ∈ cls.constructor?) (has : body ∈ m.body) :
    ∃ f₁ inner f₂, inside = f₁ ++ .group body.opener inner body.closer f₂ ∧
      GroupAt c (l ++ o :: f₁.ids) body.opener inner body.closer (f₂.ids ++ e :: r) := by
  have renamed : Member.method (m.rename id) ∈ (outline c inside).map bare := by
    rw [members, List.map_append, List.map_map, List.mem_append, List.mem_map]
    exact .inl ⟨_, method_of_constructor found, rfl⟩
  obtain ⟨a, inOutline, is⟩ := List.mem_map.mp renamed
  obtain ⟨a', member, rfl⟩ := List.mem_map.mp inOutline
  cases a' with
  | property p => simp [Member.rename, bare] at is
  | other => simp [Member.rename, bare] at is
  | method m' =>
    have same : m'.body.map (·.rename id) = m.body.map (·.rename id) :=
      congrArg Method.body (Member.method.inj is)
    rw [Option.mem_def.mp has, Option.map_some, Option.map_eq_some_iff] at same
    obtain ⟨body', has', brackets⟩ := same
    obtain ⟨f₁, inner, f₂, split, place⟩ := groupAt_of_method group member has'
    have opener : body'.opener = body.opener := by
      show (body'.rename id).opener = (body.rename id).opener
      rw [brackets]
    have closer : body'.closer = body.closer := by
      show (body'.rename id).closer = (body.rename id).closer
      rw [brackets]
    rw [opener, closer] at split place
    exact ⟨f₁, inner, f₂, split, place⟩

/-- The constructor is still there when the defaults are out. -/
theorem Dropped.body (dropped : Dropped c₀ ds fin cls todo c l inside r more) {m : Method}
    {body : Group} (found : m ∈ cls.constructor?) (has : body ∈ m.body) :
    ∃ f₁ inner f₂, inside = f₁ ++ .group body.opener inner body.closer f₂ ∧
      GroupAt c (l ++ cls.body.opener :: f₁.ids) body.opener inner body.closer
        (f₂.ids ++ cls.body.closer :: r) :=
  groupAt_of_constructor dropped.group dropped.members found has

theorem not_significant {x : NodeId} (blank : c.isWhitespace x = true) :
    c.tokenIs Token.isSignificant x = false := by
  obtain ⟨t, token, isBlank⟩ := Chain.tokenIs_iff.mp blank
  simp [Chain.tokenIs_of_token? token, Token.isSignificant, isBlank]

theorem plain_of_filler {x : NodeId} (wf : c.WellFormed) (member : x ∈ c.order)
    (plain : c.tokenIs Token.isSignificant x = false) :
    c.Known x ∧ c.opens x = false ∧ c.closes x = false := by
  obtain ⟨t, token⟩ := Chain.known_iff_token?.mp (wf.known_of_mem_order member)
  refine Forest.plain_of_kind token fun kind => ?_
  simp [Chain.tokenIs_of_token? token, Token.isSignificant, Token.isWhitespace, Token.isComment,
    kind] at plain

/-- The whitespace at the end of a body. -/
theorem exists_spaces (wf : c.WellFormed) (group : GroupAt c l o inside e r) {init spaces : List NodeId}
    (ends : l ++ o :: inside.ids = init ++ spaces)
    (blank : ∀ x ∈ spaces, c.isWhitespace x = true) :
    ∃ h, inside = h ++ Forest.atoms spaces ∧ init = l ++ o :: h.ids := by
  obtain ⟨⟨bracket, opener, closer⟩, fits, -⟩ := group.fits
  have seen := (ClassDecl.seen_of_brackets opener closer).1
  have split : (l ++ [o]) ++ inside.ids = init ++ spaces := by simpa using ends
  have within : ∃ y, inside.ids = y ++ spaces ∧ init = (l ++ [o]) ++ y := by
    rcases List.append_eq_append_iff.mp split with ⟨y, rfl, tail⟩ | ⟨y, front, rfl⟩
    · exact ⟨y, tail, rfl⟩
    · rcases List.eq_nil_or_concat y with rfl | ⟨y, z, rfl⟩
      · exact ⟨[], by simp, by simpa using front.symm⟩
      · have last : o = z := by
          rw [List.concat_eq_append, ← List.append_assoc] at front
          exact (List.cons.inj (List.append_inj' front rfl).2).1
        have isBlank := blank z (by simp)
        simp [← last, seen] at isBlank
  obtain ⟨y, ids, rfl⟩ := within
  have fitsSpaces : (Forest.atoms spaces).Fits c := Forest.fits_atoms fun x member => by
    exact plain_of_filler wf (by simp [group.order, ids, member]) (not_significant (blank x member))
  obtain ⟨h, rfl, rfl⟩ := fits.eq_append_of_suffix fitsSpaces (by rw [ids, Forest.ids_atoms])
  exact ⟨h, rfl, by simp⟩

/-- A header that runs into new statements is exposed. -/
theorem exposed_of_header (inv : Inv c₀ ds fin todo c) (base : c₀.Sound) (target : Target ds o e)
    {l₀ r₀ : List NodeId} {inner₀ : Forest} (group₀ : GroupAt c₀ l₀ o inner₀ e r₀)
    {spaces : List NodeId} (inserted : Inserted c d left tokens (spaces ++ e :: right) ids)
    (blank : ∀ x ∈ spaces, c.isWhitespace x = true) {before header rest : List NodeId}
    (at' : HeaderAt d before k header b rest) (ends : b ∈ ids) : k ∈ ids ∨ Exposed c₀ ds k := by
  rcases start_of_header inserted.roomy.wellFormed.order_nodup inserted.order at' ends with
    inside | ⟨h₁, n₁, rfl, rfl⟩
  · exact .inl inside
  have old : ∀ x ∈ k :: h₁, d.token? x = c.token? x := fun x member =>
    inserted.old x (inv.sound.wellFormed.known_of_mem_order (by
      rw [inserted.before]
      simp only [List.mem_append]
      exact .inl (.inr member)))
  have walks : Walks c before k (h₁ ++ spaces) e right := by
    refine ⟨by simp [inserted.before], ?_, ?_⟩
    · rw [← Chain.tokenIs_eq_of_token? (old k List.mem_cons_self)]
      exact at'.keyword
    · intro y member
      rcases List.mem_append.mp member with early | late
      · rw [← Chain.tokenIs_eq_of_token? (old y (List.mem_cons_of_mem _ early))]
        exact at'.quiet y (List.mem_append_left _ early)
      · obtain ⟨t, token, isBlank⟩ := Chain.tokenIs_iff.mp (blank y late)
        simp [Chain.tokenIs_of_token? token, ClassDecl.endsHeader, Token.isPunctuation,
          beq_iff_eq.mp isBlank]
  obtain ⟨⟨bracket, opener, closer⟩, -⟩ := group₀.fits
  have plain : c₀.tokenIs (·.isPunctuation ';') e = false :=
    ClassDecl.semicolon_of_closer group₀.fits (g := .mk o e inner₀.groups) List.mem_cons_self
  have known : c₀.Known e := base.wellFormed.known_of_mem_order (by simp [group₀.order])
  obtain ⟨before₀, rest₀, walks₀⟩ := inv.walks _ _ _ _ _ walks known plain
  exact .inr ⟨by simp [walks₀.order], o, e, target,
    .inr (walks₀.mem_header base.wellFormed (ClassDecl.seen_of_brackets opener closer).2)⟩

/-- A property in front of whitespace at the end stays when something is put there. -/
theorem Spans.addStatements {p : Property} {h : Forest} {spaces : List NodeId}
    (spans : Spans c₀ (h ++ .atoms spaces) p) (fits : (h ++ .atoms spaces).Fits c)
    (out : p.terminator ∉ spaces) : Spans c₀ (h ++ (new ++ .atoms spaces)) p := by
  obtain ⟨f₁, m, f₂, y, z, split, some, order⟩ := spans
  have ids : h.ids ++ spaces = (f₁.ids ++ p.variableId :: m.ids) ++ p.terminator :: f₂.ids := by
    have ids := congrArg Forest.ids split
    simpa [Forest.ids, Forest.ids_atoms] using ids
  have behind : ∃ u, h.ids = (f₁.ids ++ p.variableId :: m.ids) ++ p.terminator :: u ∧
      f₂.ids = u ++ spaces := by
    rcases List.append_eq_append_iff.mp ids with ⟨u, -, beyond⟩ | ⟨u, front, beyond⟩
    · exact (out (by simp [beyond])).elim
    · cases u with
      | nil => exact (out (by simp [← show p.terminator :: f₂.ids = spaces from beyond])).elim
      | cons first u =>
        obtain ⟨rfl, tail⟩ := List.cons.inj beyond
        exact ⟨u, front, tail⟩
  obtain ⟨u, front, back⟩ := behind
  have fits' := fits
  rw [split] at fits'
  simp only [Forest.fits_append, Forest.Fits] at fits fits'
  obtain ⟨f₂, rfl, rfl⟩ := fits'.2.2.2.2.eq_append_of_suffix fits.2 (by rw [back, Forest.ids_atoms])
  have fitsAll : (f₁ ++ .atom p.variableId (m ++ .atom p.terminator f₂)).Fits c := by
    simp only [Forest.fits_append, Forest.Fits] at fits' ⊢
    tauto
  obtain rfl := fits.1.eq_of_ids fitsAll (by simp [front, Forest.ids])
  exact ⟨f₁, m, f₂ ++ (new ++ .atoms spaces), y, z, by simp, some, order⟩

/-- A class whose braces are those of the constructor gets more members. -/
theorem Standing.addStatements (standing : Standing c₀ c ds cls) (nodup : c.order.Nodup)
    (same : cls.body.opener = o) {spaces : List NodeId} {h : Forest}
    (blank : ∀ x ∈ spaces, c.isWhitespace x = true)
    (seen : ∀ x ∈ movable cls, c.isWhitespace x.1.terminator = false)
    (edited : Edited c d l o h .nil new (.atoms spaces) e r) (target : Target ds o e) :
    Standing c₀ d ds cls := by
  obtain ⟨l', inside, r', more, stands⟩ := standing
  have group := stands.group
  rw [same] at group
  obtain ⟨rfl, rfl, closer, rfl⟩ := edited.group.unique nodup group
  have nothing : ∀ x ∈ spaces, c.tokenIs Token.isSignificant x = false := fun x member =>
    not_significant (blank x member)
  obtain ⟨others, members⟩ := ClassDecl.membersOf_append d h (new ++ .atoms spaces)
  refine ⟨l, h ++ (new ++ .atoms spaces), r, more ++ others.map (·.rename id), ?_, ?_, ?_, ?_⟩
  · rw [same, ← closer]
    exact edited.here
  · have kept : outline d h = outline c h :=
      ClassDecl.outline_congr fun x member => edited.guarded.same x (by simp [member])
    have before := stands.outline
    rw [Forest.nil_append, outline_eq, (ClassDecl.membersOf_fillers nothing).1, ← outline_eq] at before
    rw [outline_eq, members, List.map_append, ← outline_eq, kept, before, List.append_assoc]
  · intro noTarget
    exact (noTarget e (same ▸ target)).elim
  · intro x member
    refine (stands.spans x member).addStatements stands.group.fits.2.1 fun inside => ?_
    have isBlank := blank _ inside
    simp [seen x member] at isBlank

/-- A class with the same braces as one that is done cannot be worked on. -/
theorem Turn.opener_ne (turn : Turn c₀ ds fin cls todo)
    (dropped : Dropped c₀ ds fin cls todo c l inside r more) {cls' : ClassDecl} (later : cls' ∈ todo)
    (standing : Standing c₀ c ds cls') : cls'.body.opener ≠ cls.body.opener := by
  intro same
  have members := (turn.read (turn.mem_of_todo later)).members_eq turn.base (turn.read turn.mem) same
  obtain ⟨x, member, settled⟩ := dropped.gone
  refine standing.not_gone dropped.inv.sound.wellFormed.order_nodup ⟨x, ?_, settled⟩
  rw [movable_eq, members, ← movable_eq]
  exact member

/-- The constructor is not in a default of a later class. -/
theorem Turn.body_not_mem (turn : Turn c₀ ds fin cls todo) {inner : Forest}
    (dropped : Dropped c₀ ds fin cls todo c l (f₁ ++ .group o inner e f₂) r more)
    {cls' : ClassDecl} (later : cls' ∈ todo) (standing : Standing c₀ c ds cls')
    {x : Property × Initializer} (member : x ∈ movable cls') {y z m : List NodeId}
    (order : c₀.order = y ++ x.1.variableId :: (m ++ x.1.terminator :: z)) : o ∉ m := by
  intro inside
  have different := turn.opener_ne dropped later standing
  have nodup := dropped.inv.sound.wellFormed.order_nodup
  obtain ⟨l', body, r', more', stands⟩ := standing
  obtain ⟨g₁, m', g₂, y', z', rfl, -, order'⟩ := stands.spans x member
  obtain ⟨-, rfl, -⟩ := between_unique turn.base.wellFormed.order_nodup order order'
  obtain ⟨a, z, split⟩ := List.append_of_mem inside
  have place : c.order = (l ++ cls.body.opener :: f₁.ids) ++
      o :: (inner.ids ++ e :: (f₂.ids ++ cls.body.closer :: r)) := by
    simp [dropped.group.order, Forest.ids]
  have place' : c.order = (l' ++ cls'.body.opener :: (g₁.ids ++ x.1.variableId :: a)) ++
      o :: (z ++ x.1.terminator :: (g₂.ids ++ cls'.body.closer :: r')) := by
    simp [stands.group.order, Forest.ids, split]
  obtain ⟨same, -⟩ := split_unique nodup place place'
  have fits := dropped.group.fits.2.1
  have fits' := stands.group.fits.2.1
  simp only [Forest.fits_append, Forest.Fits] at fits fits'
  have flat : c.level [x.1.variableId] = 0 := Forest.level_of_plain fits'.2.1.2.1 fits'.2.1.2.2
  have high := fits'.2.2.1.level_nonneg split
  -- So the braces of the class are in that default too.
  have found : cls.body.opener ∈ x.1.variableId :: a := by
    refine fits.1.opener_mem fits'.1 dropped.group.level_opener stands.group.level_opener ?_ same
      different.symm
    rw [Forest.level_cons, flat]
    omega
  rcases List.mem_cons.mp found with named | before
  · have up := dropped.group.level_opener
    rw [named, flat] at up
    omega
  · exact turn.opener_not_mem later member order (by simp [split, before])

/-- New statements are a forest that ends with a semicolon. -/
theorem exists_statements {indent : Text} {statements : List (List Token)} {line : List Token}
    (some : statements ≠ []) (each : ∀ s ∈ statements, IsStatement s)
    (lines : line = [] ∨ ∃ text, text.Indents ∧ line = [newLine text])
    (tokensOf : ids.map d.token? = (block indent statements ++ line).map Option.some) :
    ∃ new : Forest, new.ids = ids ∧ new.Fits d ∧ Sealed d new.ids := by
  have lineBalanced : Balanced line := by
    rcases lines with rfl | ⟨text, -, rfl⟩
    · exact .nil
    · exact .of_kind (newLine_ne_punctuation text) .nil
  have plain : ∀ t ∈ line, t.isKeyword "class" = false := by
    rcases lines with rfl | ⟨text, -, rfl⟩
    · simp
    · simp [newLine_not_class]
  obtain ⟨new, rfl, fits⟩ := ((block_balanced each).append lineBalanced).exists_forest tokensOf
  obtain ⟨front, blockEnds⟩ : ∃ front, block indent statements = front ++ [mark ';'] :=
    block_ends some each
  have split : block indent statements ++ line = front ++ mark ';' :: line := by simp [blockEnds]
  exact ⟨new, rfl, fits, sealed_of_tokens tokensOf split plain⟩

theorem edited_of_statements {spaces : List NodeId} {h : Forest} (sound : c.Sound)
    (group : GroupAt c l o (h ++ .atoms spaces) e r)
    (inserted : Inserted c d (l ++ o :: h.ids) tokens (spaces ++ e :: r) new.ids)
    (fits : new.Fits d) (sealed : Sealed d new.ids)
    (blank : ∀ x ∈ spaces, c.isWhitespace x = true) :
    Edited c d l o h .nil new (.atoms spaces) e r := by
  obtain ⟨bracket, opener, closer⟩ := group.fits.1
  refine ⟨group, ?_, inserted.sound sound, inserted.old, inserted.fresh, ?_⟩
  · rw [Forest.ids_atoms]
    exact ClassDecl.guarded_of_closer (swap_of_inserted sound.wellFormed inserted fits) sealed
      blank (Forest.closes_of_bracket opener closer).1
  · -- Behind the place there is whitespace or the closing bracket.
    intro v t x y _ semicolon _ same
    have first : t ∈ spaces ∨ t = e := by
      rw [Forest.ids_atoms] at same
      cases spaces with
      | nil => exact .inr (List.cons.inj same).1.symm
      | cons first spaces => exact .inl (by simp [← (List.cons.inj same).1])
    rcases first with inside | rfl
    · obtain ⟨u, token, isBlank⟩ := Chain.tokenIs_iff.mp (blank t inside)
      simp [Chain.tokenIs_of_token? token, Token.isPunctuation, beq_iff_eq.mp isBlank] at semicolon
    · have plain := ClassDecl.semicolon_of_closer group.fits
        (g := .mk o t (h ++ .atoms spaces).groups) List.mem_cons_self
      rw [Group.closer, semicolon] at plain
      simp at plain

theorem Turn.addStatements (turn : Turn c₀ ds fin cls todo) (active : Active cls.members)
    (dropped : Dropped c₀ ds fin cls todo w.chain l inside r more) {m : Method} {body : Group}
    (found : m ∈ cls.constructor?) (has : body ∈ m.body) {start : NodeId} {indent : Text}
    {statements : List (List Token)} (some : statements ≠ [])
    (each : ∀ s ∈ statements, IsStatement s ∧ Traced (IsCopy c₀ cls) s)
    (ok : ConstructorDefaults.addStatements start body indent statements w = .ok () w') :
    Inv c₀ ds (fin ++ [cls]) todo w'.chain := by
  have sound := dropped.inv.sound
  obtain ⟨f₁, inner, f₂, rfl, group⟩ := dropped.body found has
  have order : w.chain.order = ((l ++ cls.body.opener :: f₁.ids) ++ body.opener :: inner.ids) ++
      body.closer :: (f₂.ids ++ cls.body.closer :: r) := by simp [group.order]
  obtain ⟨init, spaces, line, ids, left, blank, lines, -, inserted⟩ :=
    addStatements_ok sound.toRoomy order ok
  obtain ⟨h, rfl, rfl⟩ := exists_spaces sound.wellFormed group left blank
  obtain ⟨new, rfl, fits, sealed⟩ :=
    exists_statements some (fun s member => (each s member).1) lines inserted.tokens
  have traced : Traced (IsCopy c₀ cls) (block indent statements ++ line) := by
    refine (Traced.block fun s member => (each s member).2).append (.of_plain ?_)
    rcases lines with rfl | ⟨text, -, rfl⟩
    · simp
    · simp [newLine_not_class]
  have edited := edited_of_statements sound group inserted fits sealed blank
  have target : Target ds body.opener body.closer :=
    ⟨cls, turn.mem, active, m, found, body, has, rfl, rfl⟩
  obtain ⟨l₀, inside₀, r₀, group₀, members₀⟩ := (turn.read turn.mem).groupAt
  obtain ⟨g₁, inner₀, g₂, -, body₀⟩ :=
    groupAt_of_method group₀ (members₀ ▸ method_of_constructor found) has
  have known : c₀.Known body.opener := turn.base.wellFormed.known_of_mem_order (by simp [body₀.order])
  have allowed := turn.allowed dropped.inv edited inserted traced
    (fun p member _ _ _ _ _ value => dropped.values active member value) known
    (.inl ⟨body.closer, target⟩)
    (fun before k header b rest at' ends =>
      exposed_of_header dropped.inv turn.base target body₀ inserted blank at' ends)
    (fun noTarget => (noTarget body.closer target).elim)
    (by
      intro cls' later active' same standing
      refine standing.addStatements sound.wellFormed.order_nodup same blank ?_ edited target
      intro x member
      exact ClassDecl.isWhitespace_of_punctuation
        (dropped.inv.default (turn.read (turn.mem_of_todo later)) member).2.2
        fun u kind => by simp [Token.isPunctuation, kind])
    (fun cls' later active' different standing x member y z m order =>
      turn.body_not_mem dropped later standing member order)
  have different : cls.body.opener ≠ body.opener := by
    have once := sound.wellFormed.order_nodup
    rw [dropped.group.order, List.nodup_append, List.nodup_cons] at once
    intro same
    exact once.2.1.1 (by simp [same, Forest.ids])
  refine (dropped.inv.edited turn.base allowed).finish (turn.read turn.mem) ?_
    fun _ cls' later active' takes =>
      dropped.inv.gone_edited edited later (dropped.taken turn later active' takes)
  intro _ noTarget l' inside' e' r' at'
  obtain ⟨l'', inside'', r'', at'', outlines⟩ := edited.other_before at'
    (fun new => edited.fresh _ new (dropped.inv.known ((turn.read turn.mem).known turn.base))) different
  obtain ⟨-, rfl, -⟩ := at''.unique sound.wellFormed.order_nodup dropped.group
  rw [← outlines]
  exact dropped.plain noTarget

end Restyle.ConstructorDefaults
