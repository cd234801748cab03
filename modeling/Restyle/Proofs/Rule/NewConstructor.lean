import Restyle.Proofs.Rule.Additions

/-!
# A new constructor

A class without a constructor gets one after its last property. What is put there is one method of
the class, so the members around it stay what they were.
-/

namespace Restyle.ConstructorDefaults
open RuleM
open Chain (Inserted)
open ClassDecl (Guarded HeaderAt Sealed declaredAfter membersOf outline)
open Member (isEnd ofItems runs)
variable {c₀ c d : Chain} {ds fin todo : List ClassDecl} {cls : ClassDecl}
  {l r left right ids : List NodeId} {o e k b t : NodeId} {f₁ f₂ new inside : Forest}
  {more : List Member} {tokens : List Token} {w w' : Workspace}

/-! ### The new method -/

/-- The items of a constructor without parameters. -/
theorem ofItems_constructor {first word name : NodeId} (round braces : Group)
    (firstOf : d.token? first = some (keyword "public"))
    (wordOf : d.token? word = some (keyword "function"))
    (nameOf : d.token? name = some (identifier "__construct".toList))
    (braceOf : d.token? braces.opener = some (mark '{')) :
    ∃ m, ofItems d [.atom first, .atom word, .atom name, .group round, .group braces] = .method m ∧
      m.isConstructor = true ∧ m.body = some braces := by
  have other : d.tokenIs (·.isKeyword "function") first = false := by
    rw [Chain.tokenIs_of_token? firstOf]
    decide
  have function : d.tokenIs (·.isKeyword "function") word = true := by
    rw [Chain.tokenIs_of_token? wordOf]
    decide
  have named : d.tokenIs Member.isName name = true := by
    rw [Chain.tokenIs_of_token? nameOf]
    decide
  have text : d.textOf name = "__construct".toList := by
    rw [Chain.textOf_of_token? nameOf]
    decide
  have brace : Member.isBraces d braces = true := by
    rw [Member.isBraces, Chain.tokenIs_of_token? braceOf]
    decide
  have groups : [Item.atom first, .atom word, .atom name, .group round, .group braces].filterMap
      Item.group? = [round, braces] := rfl
  refine ⟨Member.methodOf d first [.atom first, .atom word, .atom name, .group round, .group braces],
    ?_, ?_, ?_⟩
  · simp [ofItems, Member.isAtom, other, function, Item.first]
  · have called : (Member.methodOf d first
        [.atom first, .atom word, .atom name, .group round, .group braces]).name =
          "__construct".toList := by
      simp [Member.methodOf, Member.isAtom, other, function, named, text, Item.first]
    rw [Method.isConstructor, called]
    decide
  · simp [Member.methodOf, groups, brace]

/-- Nodes that declare nothing but a constructor. -/
structure IsMethod (d : Chain) (new : Forest) : Prop where
  fits : new.Fits d
  member : ∃ m, membersOf d new = [.method m] ∧ m.isConstructor = true ∧ m.body.isSome = true
  ends : ∃ items final, new.significant d = items ++ [final] ∧ isEnd d final = true
  last : ∃ init e, new.ids = init ++ [e] ∧ d.tokenIs (·.isPunctuation '}') e = true

theorem IsMethod.plain (method : IsMethod d new) : (membersOf d new).filterMap default? = [] := by
  obtain ⟨m, members, -⟩ := method.member
  rw [members]
  rfl

theorem known_of_tokens {ts : List Token} (tokens : ids.map d.token? = ts.map some) :
    ∀ x ∈ ids, ∃ u ∈ ts, d.token? x = some u := by
  intro x member
  have inside : d.token? x ∈ ts.map some := tokens ▸ List.mem_map_of_mem member
  obtain ⟨u, among, token⟩ := List.mem_map.mp inside
  exact ⟨u, among, token.symm⟩

def headTokens (separator : Text) : List Token :=
  [.classify .whitespace separator, keyword "public", space, keyword "function", space,
    identifier "__construct".toList]

theorem headTokens_kind {separator : Text} {u : Token} (member : u ∈ headTokens separator) :
    u.kind ≠ .punctuation := by
  simp only [headTokens, List.mem_cons, List.not_mem_nil, or_false] at member
  rcases member with rfl | rfl | rfl | rfl | rfl | rfl <;>
    exact Token.classify_ne _ (by decide) (by decide)

theorem isFiller_of_space {x : NodeId} {text : Text}
    (token : d.token? x = some (.classify .whitespace text)) : Member.isFiller d (.atom x) = true := by
  refine ClassDecl.isFiller_of_whitespace ?_
  rw [Chain.isWhitespace, Chain.tokenIs_of_token? token]
  exact Token.isWhitespace_classify _

theorem significant_of_head {separator : Text} {head : List NodeId}
    (headOf : head.map d.token? = (headTokens separator).map some) :
    ∃ first word name, (Forest.atoms head).significant d = [.atom first, .atom word, .atom name] ∧
      d.token? first = some (keyword "public") ∧ d.token? word = some (keyword "function") ∧
      d.token? name = some (identifier "__construct".toList) := by
  simp only [headTokens, List.map_cons, List.map_nil] at headOf
  obtain ⟨s₁, tail, rfl, space₁, headOf⟩ := List.map_eq_cons_iff.mp headOf
  obtain ⟨first, tail, rfl, firstOf, headOf⟩ := List.map_eq_cons_iff.mp headOf
  obtain ⟨s₂, tail, rfl, space₂, headOf⟩ := List.map_eq_cons_iff.mp headOf
  obtain ⟨word, tail, rfl, wordOf, headOf⟩ := List.map_eq_cons_iff.mp headOf
  obtain ⟨s₃, tail, rfl, space₃, headOf⟩ := List.map_eq_cons_iff.mp headOf
  obtain ⟨name, tail, rfl, nameOf, headOf⟩ := List.map_eq_cons_iff.mp headOf
  obtain rfl := List.map_eq_nil_iff.mp headOf
  have seen : ∀ x t, d.token? x = some t → t.isSignificant = true →
      Member.isFiller d (.atom x) = false := by
    intro x t token significant
    simp [Member.isFiller, Chain.tokenIs_of_token? token, significant]
  refine ⟨first, word, name, ?_, firstOf, wordOf, nameOf⟩
  simp [Forest.significant, Forest.items_atoms, isFiller_of_space space₁,
    isFiller_of_space space₂, isFiller_of_space space₃, seen _ _ firstOf (by decide),
    seen _ _ wordOf (by decide), seen _ _ nameOf (by decide)]

theorem kind_of_head {separator : Text} {head : List NodeId}
    (headOf : head.map d.token? = (headTokens separator).map some) :
    ∀ x ∈ head, ∃ u, d.token? x = some u ∧ u.kind ≠ .punctuation := by
  intro x member
  obtain ⟨u, among, token⟩ := known_of_tokens headOf x member
  exact ⟨u, token, headTokens_kind among⟩

section Method
variable {separator indent : Text} {head : List NodeId} {inner : Forest} {p q n o e : NodeId}
  (headOf : head.map d.token? = (headTokens separator).map some)
  (openOf : d.token? p = some (mark '(')) (closeOf : d.token? q = some (mark ')'))
  (lineOf : d.token? n = some (newLine indent)) (braceOf : d.token? o = some (mark '{'))
  (endOf : d.token? e = some (mark '}'))
include openOf lineOf braceOf

theorem significant_method :
    (Forest.atoms head ++ .group p .nil q (.atom n (.group o inner e .nil))).significant d =
      ((Forest.atoms head).significant d ++ [.group (.mk p q [])]) ++
        [.group (.mk o e inner.groups)] := by
  have blank : Member.isFiller d (.atom n) = true := isFiller_of_space lineOf
  have round : Member.isFiller d (.group (.mk p q [])) = false := by
    rw [Member.isFiller, Group.opener, Chain.tokenIs_of_token? openOf]
    decide
  have braces : Member.isFiller d (.group (.mk o e inner.groups)) = false := by
    rw [Member.isFiller, Group.opener, Chain.tokenIs_of_token? braceOf]
    decide
  rw [Forest.significant_append, List.append_assoc]
  simp [Forest.significant, Forest.items, Forest.groups, blank, round, braces]

include headOf closeOf endOf

theorem fits_method (fits : inner.Fits d) :
    (Forest.atoms head ++ .group p .nil q (.atom n (.group o inner e .nil))).Fits d := by
  have fitsHead : (Forest.atoms head).Fits d := Forest.fits_atoms fun x member => by
    obtain ⟨u, token, kind⟩ := kind_of_head headOf x member
    exact Forest.plain_of_kind token kind
  simp only [Forest.fits_append, Forest.Fits]
  refine ⟨fitsHead, ⟨')', ?_, ?_⟩, trivial,
    Forest.plain_of_kind lineOf (newLine_ne_punctuation indent), ⟨'}', ?_, ?_⟩, fits, trivial⟩
  · rw [openOf]
    decide
  · rw [Chain.tokenIs_of_token? closeOf]
    decide
  · rw [braceOf]
    decide
  · rw [Chain.tokenIs_of_token? endOf]
    decide

/-- A head, parentheses, a line break and braces are a method. -/
theorem isMethod_of_tokens (fits : inner.Fits d) :
    IsMethod d (.atoms head ++ .group p .nil q (.atom n (.group o inner e .nil))) := by
  have items : (Forest.atoms head ++ .group p .nil q (.atom n (.group o inner e .nil))).significant d =
      ((Forest.atoms head).significant d ++ [.group (.mk p q [])]) ++
        [.group (.mk o e inner.groups)] := significant_method openOf lineOf braceOf
  have ends : isEnd d (.group (.mk o e inner.groups)) = true := by
    rw [isEnd, Member.isBraces, Group.opener, Chain.tokenIs_of_token? braceOf]
    decide
  have quiet : ∀ i ∈ (Forest.atoms head).significant d ++ [.group (.mk p q [])], isEnd d i = false := by
    intro i member
    rcases List.mem_append.mp member with inHead | last
    · have inItems := (Forest.mem_significant.mp inHead).1
      rw [Forest.items_atoms] at inItems
      obtain ⟨x, inside, rfl⟩ := List.mem_map.mp inItems
      obtain ⟨u, token, kind⟩ := kind_of_head headOf x inside
      simp [isEnd, Chain.tokenIs_of_token? token, Token.isPunctuation, kind]
    · rw [List.mem_singleton.mp last, isEnd, Member.isBraces, Group.opener,
        Chain.tokenIs_of_token? openOf]
      decide
  refine ⟨fits_method headOf openOf closeOf lineOf braceOf endOf fits, ?_, ⟨_, _, items, ends⟩, ?_⟩
  · obtain ⟨first, word, name, words, firstOf, wordOf, nameOf⟩ := significant_of_head headOf
    obtain ⟨m, method, constructs, body⟩ := ofItems_constructor (.mk p q [])
      (.mk o e inner.groups) firstOf wordOf nameOf braceOf
    refine ⟨m, ?_, constructs, by simp [body]⟩
    rw [ClassDecl.membersOf_eq, items, Member.runs_cut quiet ends, List.map_cons, words]
    exact congrArg (· :: []) method
  · refine ⟨(Forest.atoms head).ids ++ p :: q :: n :: o :: inner.ids, e, ?_, ?_⟩
    · simp [Forest.ids]
    · rw [Chain.tokenIs_of_token? endOf]
      decide

end Method

theorem exists_method {separator propertyIndent indent : Text} {statements : List (List Token)}
    (each : ∀ s ∈ statements, IsStatement s)
    (tokens : ids.map d.token? =
      (constructorTokens separator propertyIndent indent statements).map some) :
    ∃ new : Forest, new.ids = ids ∧ IsMethod d new := by
  have split : constructorTokens separator propertyIndent indent statements =
      headTokens separator ++ mark '(' :: mark ')' :: newLine propertyIndent ::
        mark '{' :: ((block indent statements ++ [newLine propertyIndent]) ++ [mark '}']) := by
    simp [constructorTokens, headTokens]
  rw [split, List.map_append] at tokens
  obtain ⟨head, tail, rfl, headOf, tailOf⟩ := List.map_eq_append_iff.mp tokens
  simp only [List.map_cons] at tailOf
  obtain ⟨p, tail, rfl, openOf, tailOf⟩ := List.map_eq_cons_iff.mp tailOf
  obtain ⟨q, tail, rfl, closeOf, tailOf⟩ := List.map_eq_cons_iff.mp tailOf
  obtain ⟨n, tail, rfl, lineOf, tailOf⟩ := List.map_eq_cons_iff.mp tailOf
  obtain ⟨o, tail, rfl, braceOf, tailOf⟩ := List.map_eq_cons_iff.mp tailOf
  rw [List.map_append] at tailOf
  obtain ⟨body, tail, rfl, bodyOf, tailOf⟩ := List.map_eq_append_iff.mp tailOf
  obtain ⟨e, tail, rfl, endOf, nothing⟩ := List.map_eq_cons_iff.mp tailOf
  obtain rfl := List.map_eq_nil_iff.mp nothing
  have bodyBalanced : Balanced (block indent statements ++ [newLine propertyIndent]) :=
    (block_balanced each).append (.of_kind (newLine_ne_punctuation _) .nil)
  obtain ⟨inner, rfl, fitsInner⟩ := bodyBalanced.exists_forest bodyOf
  exact ⟨.atoms head ++ .group p .nil q (.atom n (.group o inner e .nil)),
    by simp [Forest.ids, Forest.ids_atoms],
    isMethod_of_tokens headOf openOf closeOf lineOf braceOf endOf fitsInner⟩

/-! ### The place -/

theorem semicolon_of_property (group : GroupAt c l o inside e r)
    (members : (outline c inside).map bare = (cls.members.map (·.rename id) ++ more).map bare)
    {p : Property} (member : p ∈ cls.properties) :
    ∃ f₁ v m f₂, inside = f₁ ++ .atom v (m ++ .atom p.terminator f₂) ∧
      c.tokenIs (·.isPunctuation ';') p.terminator = true := by
  have found : Member.property p ∈ cls.members := by
    obtain ⟨a, inside, is⟩ := List.mem_filterMap.mp member
    rw [← eq_property_of_property? is]
    exact inside
  have renamed : bare (Member.rename id (.property p)) ∈ (outline c inside).map bare := by
    rw [members, List.map_append, List.map_map, List.mem_append, List.mem_map]
    exact .inl ⟨_, found, rfl⟩
  obtain ⟨a, inOutline, is⟩ := List.mem_map.mp renamed
  obtain ⟨a', among, rfl⟩ := List.mem_map.mp inOutline
  cases a' with
  | method m => simp [Member.rename, bare] at is
  | other => simp [Member.rename, bare] at is
  | property q =>
    have same : q.terminator = p.terminator := by
      simp only [Member.rename, bare, Member.property.injEq] at is
      have := congrArg Property.terminator is
      exact this
    obtain ⟨done, rest, split⟩ := List.append_of_mem among
    obtain ⟨f₁, m, f₂, here, -, semicolon, -⟩ :=
      ClassDecl.exists_property group.fits.2.1 split
    rw [same] at here semicolon
    exact ⟨f₁, q.variableId, m, f₂, here, semicolon⟩

/-- The properties are still there when the defaults are out. -/
theorem Dropped.property (dropped : Dropped c₀ ds fin cls todo c l inside r more) {p : Property}
    (member : p ∈ cls.properties) :
    ∃ f₁ v m f₂, inside = f₁ ++ .atom v (m ++ .atom p.terminator f₂) ∧
      c.tokenIs (·.isPunctuation ';') p.terminator = true :=
  semicolon_of_property dropped.group dropped.members member

/-- A header that ends in a new constructor starts there. -/
theorem start_of_constructor {fillers before header rest : List NodeId} (sound : c.Sound)
    (inserted : Inserted c d (left ++ t :: fillers) tokens right ids)
    (semicolon : c.tokenIs (·.isPunctuation ';') t = true)
    (plain : ∀ x ∈ fillers, c.tokenIs Token.isSignificant x = false)
    (at' : HeaderAt d before k header b rest) (ends : b ∈ ids) : k ∈ ids := by
  rcases start_of_header inserted.roomy.wellFormed.order_nodup inserted.order at' ends with
    inside | ⟨h₁, n₁, front, rfl⟩
  · exact inside
  have old : ∀ x ∈ left ++ t :: fillers, d.token? x = c.token? x := fun x member =>
    inserted.old x (sound.wellFormed.known_of_mem_order
      (inserted.before ▸ List.mem_append_left _ member))
  have semicolon' : d.tokenIs (·.isPunctuation ';') t = true := by
    rw [Chain.tokenIs_eq_of_token? (old t (by simp))]
    exact semicolon
  have different : k ≠ t := ClassDecl.ne_semicolon at'.keyword semicolon'
  have notFiller : k ∉ fillers := by
    intro inside
    have filler := plain k inside
    rw [← Chain.tokenIs_eq_of_token? (old k (by simp [inside]))] at filler
    obtain ⟨u, token, keyword⟩ := Chain.tokenIs_iff.mp at'.keyword
    simp only [Token.isKeyword, Bool.and_eq_true, beq_iff_eq] at keyword
    simp [Chain.tokenIs_of_token? token, Token.isSignificant, Token.isWhitespace, Token.isComment,
      keyword.1] at filler
  have stops : t ∉ h₁ := fun inside =>
    ClassDecl.semicolon_not_mem at'.quiet semicolon' (by simp [inside])
  rcases List.append_eq_append_iff.mp front with ⟨y, -, tail⟩ | ⟨y, -, tail⟩
  · cases y with
    | nil => exact (different (List.cons.inj tail).1.symm).elim
    | cons first y => exact (notFiller (by simp [(List.cons.inj tail).2])).elim
  · cases y with
    | nil => exact (different (List.cons.inj tail).1).elim
    | cons first y => exact (stops (by simp [(List.cons.inj tail).2])).elim

/-- A class can be declared after the closing brace of a method. -/
theorem IsMethod.declared (method : IsMethod d new) :
    d.visible new.ids ≠ [] ∧ declaredAfter d new.ids = true := by
  obtain ⟨init, e, ids, brace⟩ := method.last
  have seen : d.isWhitespace e = false := ClassDecl.isWhitespace_of_punctuation brace fun u kind => by
    simp [Token.isPunctuation, kind]
  have visible : d.visible new.ids = d.visible init ++ [e] := by
    simp [ids, Chain.visible, seen]
  refine ⟨by simp [visible], ?_⟩
  rw [declaredAfter, visible, List.getLast?_concat]
  simp only [Bool.not_eq_true']
  rw [Bool.eq_false_iff]
  intro holds
  have other := (ClassDecl.significant_of_undeclared holds).2
  simp [ClassDecl.kind_of_mark brace] at other

/-- The fillers after a semicolon in a body. -/
theorem exists_fillers (wf : c.WellFormed) {v t : NodeId} {m : Forest}
    (group : GroupAt c l o (f₁ ++ .atom v (m ++ .atom t f₂)) e r) {fillers rest : List NodeId}
    (split : f₂.ids ++ e :: r = fillers ++ rest)
    (plain : ∀ x ∈ fillers, c.tokenIs Token.isSignificant x = false) :
    ∃ h, f₂ = .atoms fillers ++ h ∧ rest = h.ids ++ e :: r := by
  obtain ⟨⟨bracket, -, closer⟩, fits, -⟩ := group.fits
  simp only [Forest.fits_append, Forest.Fits] at fits
  have within : ∃ y, f₂.ids = fillers ++ y ∧ rest = y ++ e :: r := by
    rcases List.append_eq_append_iff.mp split with ⟨y, rfl, beyond⟩ | ⟨y, front, rfl⟩
    · cases y with
      | nil => exact ⟨[], by simp, by simpa using beyond.symm⟩
      | cons first y =>
        obtain ⟨rfl, -⟩ := List.cons.inj beyond
        have filler := plain e (by simp)
        obtain ⟨u, token, kind⟩ := Chain.tokenIs_iff.mp (ClassDecl.kind_of_mark closer)
        simp [Chain.tokenIs_of_token? token, Token.isSignificant, Token.isWhitespace, Token.isComment,
          beq_iff_eq.mp kind] at filler
    · exact ⟨y, front, rfl⟩
  obtain ⟨y, ids, rfl⟩ := within
  have fitsFillers : (Forest.atoms fillers).Fits c := Forest.fits_atoms fun x member =>
    plain_of_filler wf (by simp [group.order, Forest.ids, ids, member]) (plain x member)
  obtain ⟨h, rfl⟩ := fits.2.2.2.2.eq_append_of_ids fitsFillers (by rw [ids, Forest.ids_atoms])
  rw [Forest.ids_append, Forest.ids_atoms] at ids
  exact ⟨h, rfl, by rw [List.append_cancel_left ids]⟩

section Place
variable {v : NodeId} {m h : Forest} {fillers : List NodeId}
  (semicolon : c.tokenIs (·.isPunctuation ';') t = true)
  (plain : ∀ x ∈ fillers, c.tokenIs Token.isSignificant x = false)
include semicolon plain

theorem edited_of_constructor (sound : c.Sound)
    (group : GroupAt c l o (f₁ ++ .atom v (m ++ .atom t (.atoms fillers ++ h))) e r)
    (inserted : Inserted c d ((l ++ o :: (f₁.ids ++ v :: m.ids)) ++ t :: fillers) tokens
      (h.ids ++ e :: r) new.ids)
    (sealed : Sealed d new.ids) (method : IsMethod d new) :
    Edited c d l o (f₁ ++ .atom v (m ++ .atom t (.atoms fillers))) .nil new h e r := by
  have front : l ++ o :: (f₁ ++ .atom v (m ++ .atom t (.atoms fillers))).ids =
      (l ++ o :: (f₁.ids ++ v :: m.ids)) ++ t :: fillers := by simp [Forest.ids, Forest.ids_atoms]
  obtain ⟨seen, declares⟩ := method.declared
  refine ⟨by simpa using group, ?_, inserted.sound sound, inserted.old, inserted.fresh, ?_⟩
  · rw [front]
    exact ClassDecl.guarded_of_fillers (swap_of_inserted sound.wellFormed inserted method.fits)
      sealed semicolon plain seen declares
  · -- What is in front of the place is no variable.
    intro v' t' x y isVariable _ ends _
    rw [front] at ends
    have last : v' = t ∨ v' ∈ fillers := by
      have final : (t :: fillers).getLast? = some v' := by
        have := congrArg List.getLast? ends
        rwa [List.getLast?_concat, List.getLast?_append_cons] at this
      exact List.mem_cons.mp (List.mem_of_getLast? final)
    obtain ⟨u, token, kind⟩ := Chain.tokenIs_iff.mp isVariable
    have kind : u.kind = .variableName := beq_iff_eq.mp kind
    rcases last with rfl | inside
    · simp [Chain.tokenIs_of_token? token, Token.isPunctuation, kind] at semicolon
    · have filler := plain v' inside
      simp [Chain.tokenIs_of_token? token, Token.isSignificant, Token.isWhitespace, Token.isComment,
        kind] at filler

/-- A body is cut where a constructor is put. -/
theorem outline_of_place : outline c (f₁ ++ .atom v (m ++ .atom t (.atoms fillers ++ h))) =
    outline c (f₁ ++ .atom v (m ++ .atom t .nil)) ++ outline c h := by
  rw [outline_eq, Layout.cut semicolon, (ClassDecl.membersOf_fillers plain).2, List.map_append]
  rfl

/-- The new method leaves the other members alone. -/
theorem outline_of_constructor
    (same : ∀ x ∈ (f₁ ++ .atom v (m ++ .atom t (.atoms fillers ++ h))).ids, d.token? x = c.token? x)
    (method : IsMethod d new) :
    outline d (f₁ ++ .atom v (m ++ .atom t (.atoms fillers ++ (new ++ h)))) =
      outline c (f₁ ++ .atom v (m ++ .atom t .nil)) ++ (outline d new ++ outline c h) := by
  have semicolon' : d.tokenIs (·.isPunctuation ';') t = true := by
    rw [Chain.tokenIs_eq_of_token? (same t (by simp [Forest.ids]))]
    exact semicolon
  have plain' : ∀ x ∈ fillers, d.tokenIs Token.isSignificant x = false := by
    intro x member
    rw [Chain.tokenIs_eq_of_token? (same x (by simp [Forest.ids, Forest.ids_atoms, member]))]
    exact plain x member
  have front : outline d (f₁ ++ .atom v (m ++ .atom t .nil)) =
      outline c (f₁ ++ .atom v (m ++ .atom t .nil)) :=
    ClassDecl.outline_congr fun x member => same x (by
      simp only [Forest.ids_append, Forest.ids, List.mem_append, List.mem_cons] at member ⊢
      tauto)
  have back : outline d h = outline c h := ClassDecl.outline_congr fun x member => same x (by
    simp [Forest.ids, member])
  have behind : outline d (new ++ h) = outline d new ++ outline d h := by
    obtain ⟨items, final, significant, ends⟩ := method.ends
    rw [outline_eq, ClassDecl.membersOf_append_of_end significant ends, List.map_append]
    rfl
  rw [outline_of_place semicolon' plain', front, behind, back]

theorem defaults_of_constructor
    (same : ∀ x ∈ (f₁ ++ .atom v (m ++ .atom t (.atoms fillers ++ h))).ids, d.token? x = c.token? x)
    (method : IsMethod d new)
    (before : (outline c (f₁ ++ .atom v (m ++ .atom t (.atoms fillers ++ h)))).filterMap default? = []) :
    (outline d (f₁ ++ .atom v (m ++ .atom t (.atoms fillers ++ (new ++ h))))).filterMap default? =
      [] := by
  rw [outline_of_place semicolon plain, List.filterMap_append, List.append_eq_nil_iff] at before
  rw [outline_of_constructor semicolon plain same method, List.filterMap_append, List.filterMap_append,
    before.1, before.2, outline_eq, defaults_rename_id, method.plain]
  rfl

end Place

/-! ### The constructor of a class -/

theorem exists_last_property (active : Active cls.members) :
    ∃ p, cls.properties.getLast? = some p ∧ p ∈ cls.properties := by
  cases last : cls.properties.getLast? with
  | some p => exact ⟨p, rfl, List.mem_of_getLast? last⟩
  | none =>
    have none : movable cls = [] := by simp [movable, List.getLast?_eq_none_iff.mp last]
    exact (active.1 (movable_eq ▸ none)).elim

/-- The statements of a new constructor, with the call of the parent's. -/
theorem forall_of_constructor {P : List Token → Prop} {statements : List (List Token)} (parent : Bool)
    (call : P parentCall) (each : ∀ s ∈ statements, P s) :
    ∀ s ∈ if parent then parentCall :: statements else statements, P s := by
  cases parent with
  | false => exact each
  | true => exact List.forall_mem_cons.mpr ⟨call, each⟩

theorem statements_of_constructor {copy : List Token → Prop} {statements : List (List Token)}
    (parent : Bool) (some : statements ≠ []) (each : ∀ s ∈ statements, IsStatement s ∧ Traced copy s) :
    (if parent then parentCall :: statements else statements) ≠ [] ∧
      ∀ s ∈ if parent then parentCall :: statements else statements, IsStatement s ∧ Traced copy s := by
  refine ⟨?_, forall_of_constructor parent ⟨isStatement_parentCall, .of_plain (by decide)⟩ each⟩
  cases parent with
  | false => exact some
  | true => exact List.cons_ne_nil _ _

theorem traced_constructor {copy : List Token → Prop} {separator propertyIndent indent : Text}
    {statements : List (List Token)} (each : ∀ s ∈ statements, Traced copy s) :
    Traced copy (constructorTokens separator propertyIndent indent statements) := by
  refine .append (.append (.of_plain fun t member => ?_) (.block each)) (.of_plain fun t member => ?_)
  · simp only [List.mem_cons, List.not_mem_nil, or_false] at member
    rcases member with rfl | rfl | rfl | rfl | rfl | rfl | rfl | rfl | rfl | rfl
    · have kind : (Token.classify .whitespace separator).kind = .whitespace :=
        beq_iff_eq.mp (Token.isWhitespace_classify _)
      simp [Token.isKeyword, kind]
    all_goals first | decide | exact newLine_not_class _
  · simp only [List.mem_cons, List.not_mem_nil, or_false] at member
    rcases member with rfl | rfl
    · exact newLine_not_class _
    · decide

theorem mark_not_class (c : Char) : (mark c).isKeyword "class" = false := by
  have kind : (mark c).kind ≠ .keyword := Token.classify_ne _ (by decide) (by decide)
  simp [Token.isKeyword, kind]

theorem constructor_ends {separator propertyIndent indent : Text} {statements : List (List Token)}
    (some : statements ≠ []) (each : ∀ s ∈ statements, IsStatement s) :
    ∃ front, constructorTokens separator propertyIndent indent statements =
      front ++ mark ';' :: [newLine propertyIndent, mark '}'] := by
  obtain ⟨init, ends⟩ : ∃ init, block indent statements = init ++ [mark ';'] := block_ends some each
  refine ⟨headTokens separator ++ mark '(' :: mark ')' :: newLine propertyIndent :: mark '{' :: init,
    ?_⟩
  rw [constructorTokens, ends]
  simp [headTokens]

theorem Turn.addConstructor (turn : Turn c₀ ds fin cls todo) (active : Active cls.members)
    (dropped : Dropped c₀ ds fin cls todo w.chain l inside r more) {propertyIndent indent : Text}
    {statements : List (List Token)} (some : statements ≠ [])
    (each : ∀ s ∈ statements, IsStatement s ∧ Traced (IsCopy c₀ cls) s)
    (ok : ConstructorDefaults.addConstructor cls propertyIndent indent statements w = .ok () w') :
    Inv c₀ ds (fin ++ [cls]) todo w'.chain := by
  have sound := dropped.inv.sound
  obtain ⟨p, last, member⟩ := exists_last_property active
  obtain ⟨f₁, v, m, f₂, rfl, semicolon⟩ := dropped.property member
  have order : w.chain.order = (l ++ cls.body.opener :: (f₁.ids ++ v :: m.ids)) ++
      p.terminator :: (f₂.ids ++ cls.body.closer :: r) := by simp [dropped.group.order, Forest.ids]
  obtain ⟨fillers, rest, separator, ids, split, trails, -, inserted⟩ :=
    addConstructor_ok sound.toRoomy last semicolon order ok
  have plain := trails.plain
  obtain ⟨h, rfl, rfl⟩ := exists_fillers sound.wellFormed dropped.group split plain
  obtain ⟨some, each⟩ := statements_of_constructor cls.hasParent some each
  obtain ⟨new, rfl, method⟩ := exists_method (fun s member => (each s member).1) inserted.tokens
  have sealed : Sealed w'.chain new.ids := by
    obtain ⟨front, ends⟩ := constructor_ends some fun s member => (each s member).1
    exact sealed_of_tokens inserted.tokens ends (by simp [newLine_not_class, mark_not_class])
  have edited := edited_of_constructor semicolon plain sound dropped.group inserted sealed method
  have traced : Traced (IsCopy c₀ cls) (constructorTokens separator propertyIndent indent
      (if cls.hasParent then parentCall :: statements else statements)) :=
    traced_constructor fun s member => (each s member).2
  have same : ∀ x ∈ (f₁ ++ .atom v (m ++ .atom p.terminator (.atoms fillers ++ h))).ids,
      w'.chain.token? x = w.chain.token? x := by
    intro x member
    refine inserted.old x (sound.wellFormed.known_of_mem_order ?_)
    rw [dropped.group.order]
    exact List.mem_append_right _ (List.mem_cons_of_mem _ (List.mem_append_left _ member))
  have plainAfter : (outline w.chain (f₁ ++ .atom v (m ++ .atom p.terminator
        (.atoms fillers ++ h)))).filterMap default? = [] →
      (outline w'.chain (f₁ ++ .atom v (m ++ .atom p.terminator
        (.atoms fillers ++ (new ++ h))))).filterMap default? = [] :=
    defaults_of_constructor semicolon plain same method
  have allowed := turn.allowed dropped.inv edited inserted traced
    (fun p member _ _ _ _ _ value => dropped.values active member value)
    ((turn.read turn.mem).known turn.base) (.inr ⟨cls, turn.mem, active, rfl⟩)
    (fun before k header b rest at' ends =>
      .inl (start_of_constructor sound inserted semicolon plain at' ends))
    (fun _ none => by simpa using plainAfter (by simpa using none))
    (fun cls' later _ same standing => (turn.opener_ne dropped later standing same).elim)
    (fun cls' later _ _ _ x member y z m order => turn.opener_not_mem later member order)
  refine (dropped.inv.edited turn.base allowed).finish (turn.read turn.mem) ?_
    fun _ cls' later active' takes =>
      dropped.inv.gone_edited edited later (dropped.taken turn later active' takes)
  intro _ noTarget l' inside' e' r' at'
  obtain ⟨-, rfl, -⟩ := at'.unique inserted.roomy.wellFormed.order_nodup edited.here
  simpa using plainAfter (dropped.plain noTarget)

end Restyle.ConstructorDefaults
