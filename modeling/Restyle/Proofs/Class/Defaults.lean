import Restyle.Proofs.Class.Runs

/-!
# Where members stand in a class body

A property with a default is a variable, the nodes of the default and a semicolon, and without
those nodes it is the same property without a default (`exists_default`).
-/

namespace Restyle.ClassDecl
open Member (isEnd ofItems runs)
variable {c : Chain} {f g : Forest} {done rest : List Member} {member : Member}

/-! ### Bodies put together -/

theorem membersOf_eq (c : Chain) (f : Forest) :
    membersOf c f = (runs (isEnd c) (f.significant c)).map (ofItems c) := rfl

theorem membersOf_congr (same : f.significant c = g.significant c) :
    membersOf c f = membersOf c g := by rw [membersOf_eq, membersOf_eq, same]

theorem membersOf_append (c : Chain) (f g : Forest) :
    ∃ more, membersOf c (f ++ g) = membersOf c f ++ more := by
  obtain ⟨more, same⟩ := Member.runs_append (isEnd c) (f.significant c) (g.significant c)
  exact ⟨more.map (ofItems c), by simp [membersOf_eq, same]⟩

theorem membersOf_append_of_end {l : List Item} {x : Item} (same : f.significant c = l ++ [x])
    (ends : isEnd c x = true) : membersOf c (f ++ g) = membersOf c f ++ membersOf c g := by
  simp only [membersOf_eq, Forest.significant_append, same]
  rw [Member.runs_append_of_end ends, List.map_append]

theorem isFiller_of_semicolon {t : NodeId} (ends : c.tokenIs (·.isPunctuation ';') t = true) :
    Member.isFiller c (.atom t) = false := by
  obtain ⟨u, token, mark⟩ := Chain.tokenIs_iff.mp ends
  simp only [Token.isPunctuation, Bool.and_eq_true, beq_iff_eq] at mark
  simp [Member.isFiller, Chain.tokenIs_of_token? token, Token.isSignificant, Token.isWhitespace,
    Token.isComment, mark.1]

/-- Fillers belong to no member. -/
theorem membersOf_fillers {l : List NodeId} (plain : ∀ x ∈ l, c.tokenIs Token.isSignificant x = false) :
    membersOf c (f ++ .atoms l) = membersOf c f ∧ membersOf c (.atoms l ++ f) = membersOf c f := by
  have nothing : (Forest.atoms l).significant c = [] := by
    rw [Forest.significant, Forest.items_atoms, List.filter_eq_nil_iff]
    intro i member
    obtain ⟨x, inside, rfl⟩ := List.mem_map.mp member
    simp [Member.isFiller, plain x inside]
  exact ⟨membersOf_congr (by simp [nothing]), membersOf_congr (by simp [nothing])⟩

/-- A body can be cut after a semicolon. -/
theorem membersOf_semicolon {t : NodeId} (ends : c.tokenIs (·.isPunctuation ';') t = true) :
    membersOf c (f ++ .atom t g) = membersOf c (f ++ .atom t .nil) ++ membersOf c g := by
  have split : (f ++ .atom t .nil).significant c = f.significant c ++ [.atom t] := by
    simp [Forest.significant, Forest.items, isFiller_of_semicolon ends]
  have cut := membersOf_append_of_end (g := g) split ends
  simpa using cut

/-! ### A member of a body -/

/-- The items of a member. They can be replaced, and so can what comes behind. -/
theorem exists_run (same : membersOf c f = done ++ member :: rest) :
    ∃ before q x after, f.significant c = before ++ (q ++ x :: after) ∧
      ofItems c (q ++ [x]) = member ∧ (∀ i ∈ q, isEnd c i = false) ∧ isEnd c x = true ∧
      (runs (isEnd c) after).map (ofItems c) = rest ∧
      ∀ (h : Forest) (q' after' : List Item), (∀ i ∈ q', isEnd c i = false) →
        h.significant c = before ++ (q' ++ x :: after') →
        membersOf c h = done ++ ofItems c (q' ++ [x]) :: (runs (isEnd c) after').map (ofItems c) := by
  rw [membersOf_eq] at same
  obtain ⟨ds, tail, cut, rfl, tailSame⟩ := List.map_eq_append_iff.mp same
  obtain ⟨run, rs, rfl, rfl, rfl⟩ := List.map_eq_cons_iff.mp tailSame
  obtain ⟨before, q, x, after, split, rfl, quiet, ends, runsAfter, runsBefore⟩ :=
    Member.runs_eq_append cut
  refine ⟨before, q, x, after, by simpa using split, rfl, quiet, ends, by rw [runsAfter], ?_⟩
  intro h q' after' quiet' same'
  rw [membersOf_eq, same', runsBefore, Member.runs_cut quiet' ends]
  simp

theorem closes_of_closer (fits : f.Fits c) {g : Group} (member : Item.group g ∈ f.items) :
    c.tokenIs Token.closesGroup g.closer = true := by
  induction f with
  | nil => simp [Forest.items] at member
  | atom id rest ih => exact ih fits.2 (by simpa [Forest.items] using member)
  | group o inside e rest _ ih =>
    obtain ⟨⟨bracket, opener, closer⟩, -, fitsRest⟩ := fits
    simp only [Forest.items, List.mem_cons, Item.group.injEq] at member
    rcases member with rfl | member
    · exact (Forest.closes_of_bracket opener closer).1
    · exact ih fitsRest member

/-- No closing bracket is a semicolon. -/
theorem semicolon_of_closer (fits : f.Fits c) {g : Group} (member : Item.group g ∈ f.items) :
    c.tokenIs (·.isPunctuation ';') g.closer = false := by
  obtain ⟨t, token, closes⟩ := Chain.tokenIs_iff.mp (closes_of_closer fits member)
  rw [Chain.tokenIs_of_token? token]
  simp only [Token.closesGroup, Token.isPunctuation, Bool.or_eq_true, Bool.and_eq_true,
    beq_iff_eq] at closes
  rcases closes with (⟨-, text⟩ | ⟨-, text⟩) | ⟨-, text⟩ <;> simp [Token.isPunctuation, text]

/-- The place of a property, with or without a default. -/
theorem exists_property {p : Property} (fits : f.Fits c)
    (same : membersOf c f = done ++ .property p :: rest) :
    ∃ f₁ m f₂, f = f₁ ++ .atom p.variableId (m ++ .atom p.terminator f₂) ∧
      c.tokenIs Member.isVariable p.variableId = true ∧
      c.tokenIs (·.isPunctuation ';') p.terminator = true ∧
      (∀ i ∈ m.significant c, isEnd c i = false) ∧ p.value = Member.valueOf c (m.significant c) ∧
      membersOf c (f₁ ++ .atom p.variableId (m ++ .atom p.terminator .nil)) =
        done ++ [.property p] ∧
      membersOf c (f₁ ++ .atom p.variableId (.atom p.terminator .nil)) =
        done ++ [.property { p with value := none }] ∧
      membersOf c f₂ = rest := by
  obtain ⟨before, q, x, after, split, is, quiet, ends, behind, other⟩ := exists_run same
  obtain ⟨modifiers, middle, rfl, rfl, named, semicolon, value, less⟩ :=
    Member.ofItems_property (fun g is => semicolon_of_closer fits
      ((Forest.mem_significant (c := c)).mp (by simp [split, is])).1) is
  have variableItem : (Forest.atom p.variableId .nil).significant c = [.atom p.variableId] :=
    Forest.significant_of_mem (f := f) (by simp [split])
  have endItem : (Forest.atom p.terminator .nil).significant c = [.atom p.terminator] :=
    Forest.significant_of_mem (f := f) (by simp [split])
  have atVariable : f.significant c = (before ++ modifiers) ++
      .atom p.variableId :: (middle ++ .atom p.terminator :: after) := by simp [split]
  obtain ⟨f₁, g, f₂, rfl, isVariable, first, second⟩ := Forest.exists_split atVariable
  obtain ⟨m, h, f₂, rfl, isEnd', rfl, rfl⟩ := Forest.exists_split second
  obtain rfl := Forest.eq_atom_of_items isVariable
  obtain rfl := Forest.eq_atom_of_items isEnd'
  refine ⟨f₁, m, f₂, by simp, named, semicolon, ?_, value, ?_, ?_, behind⟩
  · intro i member
    exact quiet i (by simp [member])
  · have long := other (f₁ ++ .atom p.variableId (m ++ .atom p.terminator .nil)) _ [] quiet (by
      rw [Forest.significant_append, first, Forest.significant_atom, variableItem,
        Forest.significant_append, endItem]
      simp)
    rw [is] at long
    exact long
  · have short := other (f₁ ++ .atom p.variableId (.atom p.terminator .nil))
      (modifiers ++ [.atom p.variableId]) [] (fun i member => quiet i (by
        simp only [List.mem_append, List.mem_cons] at member ⊢
        tauto)) (by
        rw [Forest.significant_append, first, Forest.significant_atom, variableItem, endItem]
        simp)
    have nothing := less [] (List.nil_subset _)
    rw [short]
    simpa [Member.valueOf, Member.runs] using nothing

/-- The nodes between a variable and its semicolon are a default: a sign, the value and nothing of
weight around it. -/
structure IsDefault (c : Chain) (p : Property) (value : Initializer) (lead core trail : Forest) :
    Prop where
  named : c.tokenIs Member.isVariable p.variableId = true
  semicolon : c.tokenIs (·.isPunctuation ';') p.terminator = true
  quiet : ∀ i ∈ (lead ++ (core ++ trail)).significant c, isEnd c i = false
  sign : ∃ sign, c.tokenIs (·.isOperator "=") sign = true ∧ lead.significant c = [.atom sign]
  trail : trail.significant c = []
  starts : core.ids.head? = some value.first
  ends : core.ids.getLast? = some value.last

section Congr
variable {d : Chain} (same : ∀ x ∈ f.ids, d.token? x = c.token? x)
include same

theorem significant_congr : f.significant d = f.significant c := by
  refine List.filter_congr fun i member => ?_
  have first := Chain.tokenIs_eq_of_token? (same i.first (Forest.item_ids member).1)
  cases i with
  | atom x => exact congrArg (!!·) (first Token.isSignificant)
  | group g => exact congrArg (!·) (first Token.opensAttribute)

theorem isEnd_congr {i : Item} (member : i ∈ f.items) : isEnd d i = isEnd c i := by
  have first := Chain.tokenIs_eq_of_token? (same i.first (Forest.item_ids member).1)
  cases i with
  | atom x => exact first (·.isPunctuation ';')
  | group g => exact first (·.isPunctuation '{')

end Congr

theorem IsDefault.congr {d : Chain} {p : Property} {value : Initializer} {lead core trail : Forest}
    (default : IsDefault c p value lead core trail)
    (same : ∀ x ∈ p.variableId :: p.terminator :: (lead ++ (core ++ trail)).ids,
      d.token? x = c.token? x) : IsDefault d p value lead core trail := by
  obtain ⟨named, semicolon, quiet, ⟨sign, equals, leads⟩, trails, first, last⟩ := default
  have inside : sign ∈ lead.ids := (Forest.item_ids
    (Forest.mem_significant.mp (leads ▸ List.mem_singleton_self (Item.atom sign))).1).1
  have is : ∀ x ∈ p.variableId :: p.terminator :: (lead ++ (core ++ trail)).ids, ∀ q,
      d.tokenIs q x = c.tokenIs q x := fun x member => Chain.tokenIs_eq_of_token? (same x member)
  refine ⟨(is _ (by simp) _).trans named, (is _ (by simp) _).trans semicolon, ?_,
    ⟨sign, (is _ (by simp [inside]) _).trans equals, ?_⟩, ?_, first, last⟩
  · have within : ∀ x ∈ (lead ++ (core ++ trail)).ids, d.token? x = c.token? x := fun x member =>
      same x (List.mem_cons_of_mem _ (List.mem_cons_of_mem _ member))
    intro i member
    rw [significant_congr within] at member
    rw [isEnd_congr within (Forest.mem_significant.mp member).1]
    exact quiet i member
  · rw [significant_congr fun x member => same x (by simp [member]), leads]
  · rw [significant_congr fun x member => same x (by simp [member]), trails]

theorem exists_default {p : Property} {value : Initializer} (fits : f.Fits c)
    (same : membersOf c f = done ++ .property p :: rest) (has : p.value = some value) :
    ∃ f₁ lead core trail f₂,
      f = f₁ ++ .atom p.variableId ((lead ++ (core ++ trail)) ++ .atom p.terminator f₂) ∧
      IsDefault c p value lead core trail ∧
      membersOf c (f₁ ++ .atom p.variableId ((lead ++ (core ++ trail)) ++ .atom p.terminator .nil)) =
        done ++ [.property p] ∧
      membersOf c (f₁ ++ .atom p.variableId (.atom p.terminator .nil)) =
        done ++ [.property { p with value := none }] ∧
      membersOf c f₂ = rest := by
  obtain ⟨f₁, m, f₂, rfl, named, semicolon, quiet, valueOf, here, without, behind⟩ :=
    exists_property fits same
  rw [has] at valueOf
  obtain ⟨sign, items, itemsOf⟩ : ∃ sign items, m.significant c = .atom sign :: items := by
    cases items : m.significant c with
    | nil => simp [items, Member.valueOf] at valueOf
    | cons i rest =>
      cases i with
      | atom sign => exact ⟨sign, rest, rfl⟩
      | group g => simp [items, Member.valueOf] at valueOf
  rw [itemsOf, Member.valueOf] at valueOf
  split at valueOf
  · rename_i equals
    split at valueOf
    · rename_i first last head final
      obtain rfl := Option.some.inj valueOf
      have split : m.significant c = [] ++ .atom sign :: items := itemsOf
      obtain ⟨before, g, after, rfl, isSign, none, itemsBehind⟩ := Forest.exists_split split
      obtain rfl := Forest.eq_atom_of_items isSign
      rw [← itemsBehind] at head final
      obtain ⟨lead, core, trail, rfl, noLead, noTrail, starts, ends⟩ := Forest.exists_trim head final
      refine ⟨f₁, before ++ .atom sign lead, core, trail, f₂, by simp,
        ⟨named, semicolon, by simpa using quiet, ⟨sign, equals, ?_⟩, noTrail, starts, ends⟩,
        by simpa using here, without, behind⟩
      rw [Forest.significant_append, none, Forest.significant_atom, noLead,
        Forest.significant_of_mem (itemsOf ▸ List.mem_cons_self)]
      rfl
    · simp at valueOf
  · simp at valueOf

theorem name_of_property {p : Property} (member : Member.property p ∈ membersOf c f) :
    p.name = (c.textOf p.variableId).dropWhile (· == '$') := by
  rw [membersOf_eq] at member
  obtain ⟨items, -, is⟩ := List.mem_map.mp member
  unfold ofItems at is
  split at is
  · split at is
    · cases is
    · split at is
      · rename_i found
        obtain rfl := Member.property.inj is
        unfold Member.propertyOf? at found
        dsimp only at found
        split at found
        · cases found
        · split at found
          · cases found
          · split at found
            · cases found
            · rw [← Option.some.inj found]
      · cases is
  · cases is

/-- A value does not end with a comment. -/
theorem last_of_default {p : Property} {value : Initializer} (fits : f.Fits c)
    (same : membersOf c f = done ++ .property p :: rest) (has : p.value = some value) :
    c.tokenIs Token.isComment value.last = false := by
  obtain ⟨f₁, m, f₂, rfl, -, -, -, valueOf, -⟩ := exists_property fits same
  simp only [Forest.fits_append, Forest.Fits] at fits
  have weighty : ∀ i ∈ m.significant c, c.tokenIs Token.isComment i.last = false := by
    intro i member
    obtain ⟨inside, filler⟩ := Forest.mem_significant.mp member
    cases i with
    | atom x =>
      have significant : c.tokenIs Token.isSignificant x = true := by simpa [Member.isFiller] using filler
      obtain ⟨t, token, is⟩ := Chain.tokenIs_iff.mp significant
      rw [Item.last, Chain.tokenIs_of_token? token]
      simp only [Token.isSignificant, Bool.and_eq_true, Bool.not_eq_true'] at is
      exact is.2
    | group g =>
      obtain ⟨t, token, closes⟩ := Chain.tokenIs_iff.mp (closes_of_closer fits.2.2.1 inside)
      rw [Item.last, Chain.tokenIs_of_token? token]
      simp [Token.isComment, Token.kind_of_closesGroup closes]
  rw [has] at valueOf
  cases items : m.significant c with
  | nil => simp [items, Member.valueOf] at valueOf
  | cons i behind =>
    rw [items] at valueOf weighty
    cases i with
    | group g => simp [Member.valueOf] at valueOf
    | atom sign =>
      rw [Member.valueOf] at valueOf
      split at valueOf
      · split at valueOf
        · rename_i final
          obtain rfl := Option.some.inj valueOf
          exact weighty _ (List.mem_cons_of_mem _ (List.mem_of_getLast? final))
        · cases valueOf
      · cases valueOf

/-- Nodes without an end of a member among them do not start with a semicolon. -/
theorem semicolon_of_head {t : NodeId} {tail : List NodeId} (fits : f.Fits c)
    (quiet : ∀ i ∈ f.significant c, isEnd c i = false) (same : f.ids = t :: tail) :
    c.tokenIs (·.isPunctuation ';') t = false := by
  rw [Bool.eq_false_iff]
  intro semicolon
  cases f with
  | nil => simp [Forest.ids] at same
  | atom id rest =>
    obtain ⟨rfl, -⟩ := List.cons.inj same
    have plain := quiet (.atom id) (Forest.mem_significant.mpr
      ⟨List.mem_cons_self, isFiller_of_semicolon semicolon⟩)
    simp [isEnd, semicolon] at plain
  | group o inside e rest =>
    obtain ⟨rfl, -⟩ := List.cons.inj same
    obtain ⟨⟨bracket, opener, -⟩, -⟩ := fits
    obtain ⟨u, token, closer⟩ := Option.bind_eq_some_iff.mp opener
    simp only [Chain.tokenIs_of_token? token, Token.isPunctuation, Bool.and_eq_true,
      beq_iff_eq] at semicolon
    simp [Token.closer?, semicolon.1, semicolon.2] at closer

/-- The place of the braces of a method. -/
theorem exists_body {m : Method} {body : Group} (same : membersOf c f = done ++ .method m :: rest)
    (has : m.body = some body) :
    ∃ f₁ inside f₂, f = f₁ ++ .group body.opener inside body.closer f₂ ∧
      c.tokenIs (·.isPunctuation '{') body.opener = true := by
  obtain ⟨before, q, x, after, split, is, -⟩ := exists_run same
  have bodyOf : ((((q ++ [x]).filterMap Item.group?).filter (Member.isBraces c)).getLast?) =
      some body := by
    simp only [ofItems] at is
    split at is
    · split at is
      · obtain rfl := Member.method.inj is
        exact has
      · split at is <;> simp at is
    · simp at is
  have found := List.mem_filter.mp (List.mem_of_getLast? bodyOf)
  obtain ⟨i, member, isGroup⟩ := List.mem_filterMap.mp found.1
  obtain rfl : i = .group body := by
    cases i with
    | atom id => simp [Item.group?] at isGroup
    | group g => rw [Option.some.inj isGroup]
  have inside : Item.group body ∈ f.items :=
    ((Forest.mem_significant (c := c)).mp (by
      simp only [split, List.mem_append, List.mem_cons] at member ⊢
      tauto)).1
  obtain ⟨f₁, g, f₂, rfl, single⟩ := Forest.exists_item inside
  obtain ⟨within, rfl⟩ := Forest.eq_group_of_items single
  exact ⟨f₁, within, f₂, by simp, found.2⟩

end Restyle.ClassDecl
