import Restyle.Proofs.Rule.Drops
import Restyle.Proofs.Rule.Tokens

/-!
# Classes in copied values

A value that is moved into the constructor may hold a class. Its copy is then read as a class too,
with the members that the original has under other names (`Turn.copied`).
-/

namespace Restyle
variable {c d : Chain} {name : NodeId → NodeId} {f : Forest} {x y : NodeId}

/-- The node `y` of `d` has the token of `x`, up to indentation. -/
def Alike (c d : Chain) (x y : NodeId) : Prop :=
  ∃ t t', c.token? x = some t ∧ d.token? y = some t' ∧
    (t' = t ∨ t.isWhitespace = true ∧ t'.isWhitespace = true)

theorem Alike.tokenIs {p : Token → Bool} (alike : Alike c d x y)
    (blank : ∀ t : Token, t.kind = .whitespace → p t = false) : d.tokenIs p y = c.tokenIs p x := by
  obtain ⟨t, t', token, token', same⟩ := alike
  rw [Chain.tokenIs_of_token? token, Chain.tokenIs_of_token? token']
  rcases same with rfl | ⟨first, second⟩
  · rfl
  · rw [blank t (beq_iff_eq.mp first), blank t' (beq_iff_eq.mp second)]

theorem Alike.isWhitespace (alike : Alike c d x y) : d.isWhitespace y = c.isWhitespace x := by
  obtain ⟨t, t', token, token', same⟩ := alike
  rw [Chain.isWhitespace, Chain.isWhitespace, Chain.tokenIs_of_token? token,
    Chain.tokenIs_of_token? token']
  rcases same with rfl | ⟨first, second⟩
  · rfl
  · rw [first, second]

/-- A token of another kind is the same. -/
theorem Alike.token (alike : Alike c d x y) (seen : c.isWhitespace x = false) :
    d.token? y = c.token? x := by
  obtain ⟨t, t', token, token', same⟩ := alike
  rw [Chain.isWhitespace, Chain.tokenIs_of_token? token] at seen
  rcases same with rfl | ⟨first, -⟩
  · rw [token, token']
  · simp [seen] at first

namespace Forest

def rename (name : NodeId → NodeId) : Forest → Forest
  | nil => nil
  | atom id rest => atom (name id) (rest.rename name)
  | group o inside e rest => group (name o) (inside.rename name) (name e) (rest.rename name)

theorem ids_rename : (f.rename name).ids = f.ids.map name := by
  induction f with
  | nil => rfl
  | atom id rest ih => simp [rename, ids, ih]
  | group o inside e rest ih ih' => simp [rename, ids, ih, ih']

theorem items_rename : (f.rename name).items.map (·.rename id) = f.items.map (·.rename name) := by
  induction f with
  | nil => rfl
  | atom x rest ih =>
    simp only [rename, items, List.map_cons, ih]
    rfl
  | group o inside e rest _ ih =>
    simp only [rename, items, List.map_cons, ih]
    rfl

theorem Fits.rename (fits : f.Fits c) (alike : ∀ id ∈ f.ids, Alike c d id (name id)) :
    (f.rename name).Fits d := by
  induction f with
  | nil => trivial
  | atom x rest ih =>
    have here := alike x List.mem_cons_self
    refine ⟨⟨?_, ?_, ?_⟩, ih fits.2 fun x member => alike x (List.mem_cons_of_mem _ member)⟩
    · obtain ⟨t, t', -, token', -⟩ := here
      exact Chain.known_iff_token?.mpr ⟨t', token'⟩
    · rw [Chain.opens, here.tokenIs fun t kind => by simp [Token.closer?, kind]]
      exact fits.1.2.1
    · rw [Chain.closes, here.tokenIs fun t kind => by simp [Token.closesGroup, Token.isPunctuation, kind]]
      exact fits.1.2.2
  | group o inside e rest ih ih' =>
    obtain ⟨⟨bracket, opener, closer⟩, fitsInside, fitsRest⟩ := fits
    refine ⟨⟨bracket, ?_, ?_⟩, ih fitsInside fun x member => alike x (by simp [ids, member]),
      ih' fitsRest fun x member => alike x (by simp [ids, member])⟩
    · rw [(alike o (by simp [ids])).token (ClassDecl.isWhitespace_of_punctuation
        (opens_of_bracket opener) fun t kind => by simp [Token.closer?, kind])]
      exact opener
    · rw [(alike e (by simp [ids])).tokenIs fun t kind => by simp [Token.isPunctuation, kind]]
      exact closer

end Forest

namespace ClassDecl

theorem isFiller_of_whitespace (blank : c.isWhitespace x = true) :
    Member.isFiller c (.atom x) = true := by
  obtain ⟨t, token, blank⟩ := Chain.tokenIs_iff.mp blank
  simp [Member.isFiller, Chain.tokenIs_of_token? token, Token.isSignificant, blank]

theorem seen_of_brackets {o e : NodeId} {bracket : Char}
    (opener : (c.token? o).bind Token.closer? = some bracket)
    (closer : c.tokenIs (·.isPunctuation bracket) e = true) :
    c.isWhitespace o = false ∧ c.isWhitespace e = false :=
  ⟨isWhitespace_of_punctuation (Forest.opens_of_bracket opener)
      fun t kind => by simp [Token.closer?, kind],
    isWhitespace_of_punctuation closer fun t kind => by simp [Token.isPunctuation, kind]⟩

theorem sameIn_copy (fits : f.Fits c) (alike : ∀ x ∈ f.ids, Alike c d x (name x)) :
    ∀ i ∈ f.items, i.SameIn c d name ∨
      (Member.isFiller c i = true ∧ Member.isFiller d (i.rename name) = true) := by
  induction f with
  | nil => simp [Forest.items]
  | atom x rest ih =>
    intro i member
    rcases List.mem_cons.mp member with rfl | member
    · have here := alike x List.mem_cons_self
      cases blank : c.isWhitespace x with
      | false => exact .inl ⟨here.token blank, here.token blank⟩
      | true =>
        have blank' := here.isWhitespace.trans blank
        exact .inr ⟨isFiller_of_whitespace blank, isFiller_of_whitespace blank'⟩
    · exact ih fits.2 (fun y inside => alike y (List.mem_cons_of_mem _ inside)) i member
  | group o inside e rest _ ih =>
    intro i member
    obtain ⟨⟨bracket, opener, closer⟩, -, fitsRest⟩ := fits
    rcases List.mem_cons.mp member with rfl | member
    · obtain ⟨first, last⟩ := seen_of_brackets opener closer
      exact .inl ⟨(alike o (by simp [Forest.ids])).token first,
        (alike e (by simp [Forest.ids])).token last⟩
    · exact ih fitsRest (fun y inside => alike y (by simp [Forest.ids, inside])) i member

/-- A copied body has the same members under other names. -/
theorem outline_copy (fits : f.Fits c) (alike : ∀ x ∈ f.ids, Alike c d x (name x)) :
    outline d (f.rename name) = (membersOf c f).map (·.rename name) :=
  Renamed.members ⟨Forest.items_rename, sameIn_copy fits alike⟩

/-! ### Declared classes -/

/-- The last node of a forest that is seen ends an item of it. -/
theorem last_visible (fits : f.Fits c) (last : (c.visible f.ids).getLast? = some x) :
    ∃ i ∈ f.items, i.last = x := by
  induction f with
  | nil => simp [Forest.ids, Chain.visible] at last
  | atom y rest ih =>
    have split : c.visible (y :: rest.ids) = c.visible [y] ++ c.visible rest.ids :=
      Chain.visible_append (l := [y])
    rw [Forest.ids, split, List.getLast?_append] at last
    cases behind : (c.visible rest.ids).getLast? with
    | some z =>
      rw [behind, Option.some_or] at last
      obtain ⟨i, member, ends⟩ := ih fits.2 (behind.trans last)
      exact ⟨i, List.mem_cons_of_mem _ member, ends⟩
    | none =>
      rw [behind, Option.none_or] at last
      have inside := (Chain.mem_visible.mp (List.mem_of_getLast? last)).1
      exact ⟨.atom y, List.mem_cons_self, (List.mem_singleton.mp inside).symm⟩
  | group o inside e rest _ ih =>
    obtain ⟨⟨bracket, opener, closer⟩, -, fitsRest⟩ := fits
    have split : c.visible (Forest.group o inside e rest).ids =
        c.visible (o :: inside.ids) ++ ([e] ++ c.visible rest.ids) := by
      have single : c.visible [e] = [e] := by simp [Chain.visible, (seen_of_brackets opener closer).2]
      rw [← single, ← Chain.visible_append, ← Chain.visible_append]
      simp only [Forest.ids, List.cons_append, List.nil_append]
    rw [split, List.getLast?_append, List.getLast?_append] at last
    cases behind : (c.visible rest.ids).getLast? with
    | some z =>
      rw [behind, Option.some_or, Option.some_or] at last
      obtain ⟨i, member, ends⟩ := ih fitsRest (behind.trans last)
      exact ⟨i, List.mem_cons_of_mem _ member, ends⟩
    | none =>
      rw [behind, Option.none_or] at last
      exact ⟨.group (.mk o e inside.groups), List.mem_cons_self, Option.some.inj last⟩

theorem closer_of_item {g : Group} (fits : f.Fits c) (member : Item.group g ∈ f.items) :
    ∃ bracket, c.tokenIs (·.isPunctuation bracket) g.closer = true := by
  induction f with
  | nil => simp [Forest.items] at member
  | atom y rest ih => exact ih fits.2 (by simpa [Forest.items] using member)
  | group o inside e rest _ ih =>
    rcases List.mem_cons.mp member with same | member
    · obtain ⟨⟨bracket, -, closer⟩, -⟩ := fits
      rw [Item.group.inj same]
      exact ⟨bracket, closer⟩
    · exact ih fits.2.2 member

/-- After the sign of a default a class can be declared. -/
theorem declaredAfter_sign {before : List NodeId} {sign : NodeId} (fits : f.Fits c)
    (equals : c.tokenIs (·.isOperator "=") sign = true) (signs : f.significant c = [.atom sign]) :
    declaredAfter c (before ++ f.ids) = true := by
  have inside : Item.atom sign ∈ f.items :=
    (Forest.mem_significant.mp (signs ▸ List.mem_singleton_self _)).1
  have seen : c.isWhitespace sign = false := isWhitespace_of_punctuation equals fun t kind => by
    simp [Token.isOperator, kind]
  have some : c.visible f.ids ≠ [] :=
    List.ne_nil_of_mem (Chain.mem_visible.mpr ⟨(Forest.item_ids inside).1, seen⟩)
  rw [declaredAfter_append some, declaredAfter]
  cases last : (c.visible f.ids).getLast? with
  | none => rfl
  | some y =>
    obtain ⟨i, member, rfl⟩ := last_visible fits last
    rw [Bool.not_eq_true', Bool.eq_false_iff]
    intro holds
    obtain ⟨significant, other⟩ := significant_of_undeclared holds
    cases filler : Member.isFiller c i with
    | false =>
      have item := Forest.mem_significant.mpr ⟨member, filler⟩
      rw [signs, List.mem_singleton] at item
      obtain ⟨u, token, operator | keyword⟩ := kind_of_undeclared holds
      · rw [item, Item.last] at token
        simp only [Chain.tokenIs_of_token? token, Token.isOperator, Bool.and_eq_true,
          beq_iff_eq] at equals operator
        exact absurd (equals.2.symm.trans operator.2) (by decide)
      · rw [item, Item.last] at token
        simp [Chain.tokenIs_of_token? token, Token.isOperator, keyword] at equals
    | true =>
      cases i with
      | atom y =>
        simp only [Member.isFiller, Bool.not_eq_true'] at filler
        simp [Item.last, filler] at significant
      | group g =>
        obtain ⟨bracket, closer⟩ := closer_of_item fits member
        simp [Item.last, kind_of_mark closer] at other

theorem visible_copy {ids : List NodeId} (alike : ∀ x ∈ ids, Alike c d x (name x)) :
    d.visible (ids.map name) = (c.visible ids).map name := by
  rw [Chain.visible, Chain.visible, List.filter_map]
  congr 1
  refine List.filter_congr fun x member => ?_
  simp only [Function.comp, (alike x member).isWhitespace]

/-- What is in front of a copy does not matter if something in it is seen. -/
theorem declaredAfter_copy {ids before before' : List NodeId}
    (alike : ∀ x ∈ ids, Alike c d x (name x)) (seen : c.visible ids ≠ []) :
    declaredAfter d (before' ++ ids.map name) = declaredAfter c (before ++ ids) := by
  have seen' : d.visible (ids.map name) ≠ [] := by simpa [visible_copy alike] using seen
  rw [declaredAfter_append seen, declaredAfter_append seen', declaredAfter, declaredAfter,
    visible_copy alike, List.getLast?_map]
  cases last : (c.visible ids).getLast? with
  | none => rfl
  | some x =>
    have inside := (Chain.mem_visible.mp (List.mem_of_getLast? last)).1
    have same := (alike x inside).tokenIs (p := fun t => t.isOperator "::" || t.isKeyword "new")
      fun t kind => by simp [Token.isOperator, Token.isKeyword, kind]
    simp only [Option.map_some, same]

end ClassDecl

namespace ConstructorDefaults
open ClassDecl (HeaderAt IsDefault declaredAfter membersOf ofClassAt outline)
variable {c₀ : Chain} {ds fin todo : List ClassDecl} {cls : ClassDecl} {p : Property × Initializer}
  {lead core trail inside : Forest} {l r left right before header rest y₀ z₀ : List NodeId}
  {k b e semi : NodeId}

/-- The default of a property as it was read: the value `core` and what is around it. -/
structure ValueAt (c₀ : Chain) (p : Property × Initializer) (lead core trail : Forest)
    (y₀ z₀ : List NodeId) : Prop where
  default : IsDefault c₀ p.1 p.2 lead core trail
  fits : (lead ++ (core ++ trail)).Fits c₀
  order : c₀.order = y₀ ++ p.1.variableId ::
    ((lead ++ (core ++ trail)).ids ++ p.1.terminator :: z₀)

/-- A header in a copied value is the copy of a header. -/
theorem headerAt_of_copy (value : ValueAt c₀ p lead core trail y₀ z₀) (nodup : d.order.Nodup)
    (place : d.order = left ++ (core.ids.map name ++ semi :: right))
    (ends : d.tokenIs (·.isPunctuation ';') semi = true)
    (alike : ∀ x ∈ core.ids, Alike c₀ d x (name x))
    (at' : HeaderAt d before k header b rest) (copied : k ∈ core.ids.map name) :
    ∃ k₀ h₀ b₀ before₀ rest₀, HeaderAt c₀ before₀ k₀ h₀ b₀ rest₀ ∧ k₀ ∈ core.ids ∧ b₀ ∈ core.ids ∧
      name b₀ = b := by
  obtain ⟨k₀, inside, rfl⟩ := List.mem_map.mp copied
  obtain ⟨u, v, split⟩ := List.append_of_mem inside
  have place' : d.order = (left ++ u.map name) ++ name k₀ :: (v.map name ++ semi :: right) := by
    simp [place, split]
  obtain ⟨rfl, tail⟩ := split_unique nodup at'.order place'
  obtain ⟨w, within⟩ := at'.ends_before ends tail
  obtain ⟨h₀, behind, rfl, rfl, tail'⟩ := List.map_eq_append_iff.mp within
  obtain ⟨b₀, w₀, rfl, rfl, -⟩ := List.map_eq_cons_iff.mp tail'
  have alike' : ∀ x ∈ u ++ k₀ :: (h₀ ++ b₀ :: w₀), Alike c₀ d x (name x) := fun x member =>
    alike x (split ▸ member)
  refine ⟨k₀, h₀, b₀, y₀ ++ p.1.variableId :: (lead.ids ++ u),
    w₀ ++ (trail.ids ++ p.1.terminator :: z₀), ⟨?_, ?_, ?_, ?_, ?_⟩, inside, by simp [split], rfl⟩
  · simp [value.order, split]
  · rw [← (alike' k₀ (by simp)).tokenIs fun t kind => by simp [Token.isKeyword, kind]]
    exact at'.keyword
  · by_cases seen : c₀.visible u = []
    · obtain ⟨sign, equals, signs⟩ := value.default.sign
      have fits := (Forest.fits_append.mp value.fits).1
      have blank : ∀ x ∈ u, c₀.isWhitespace x = true := by
        simpa [Chain.visible, List.filter_eq_nil_iff] using seen
      have front : y₀ ++ p.1.variableId :: (lead.ids ++ u) =
          ((y₀ ++ [p.1.variableId]) ++ lead.ids) ++ u := by simp
      rw [front, ClassDecl.declaredAfter_spaces blank]
      exact ClassDecl.declaredAfter_sign fits equals signs
    · have same : declaredAfter d (left ++ u.map name) =
          declaredAfter c₀ ((y₀ ++ p.1.variableId :: lead.ids) ++ u) :=
        ClassDecl.declaredAfter_copy (fun x member => alike' x (by simp [member])) seen
      have declared := at'.declared
      rw [same] at declared
      simpa using declared
  · intro x member
    rw [← (alike' x (by simp [member])).tokenIs fun t kind => by
      simp [ClassDecl.endsHeader, Token.isPunctuation, kind]]
    exact at'.quiet (name x) (List.mem_map_of_mem member)
  · rw [← (alike' b₀ (by simp)).tokenIs fun t kind => by simp [Token.isPunctuation, kind]]
    exact at'.brace

/-- A class in a copied value that the rule would work on is the copy of a class that is still to be
worked on, all of it in that value. -/
theorem Turn.copied (turn : Turn c₀ ds fin cls todo) (member : p ∈ movable cls)
    (value : ValueAt c₀ p lead core trail y₀ z₀) (nodup : d.order.Nodup)
    (place : d.order = left ++ (core.ids.map name ++ semi :: right))
    (ends : d.tokenIs (·.isPunctuation ';') semi = true)
    (alike : ∀ x ∈ core.ids, Alike c₀ d x (name x))
    (at' : HeaderAt d before k header b rest) (copied : k ∈ core.ids.map name)
    (group : GroupAt d l b inside e r) (active : Active (outline d inside)) :
    ∃ cls' ∈ todo, Active cls'.members ∧ ∀ q ∈ movable cls', q.1.variableId ∈ core.ids := by
  have wf := turn.base.wellFormed
  have fits := (Forest.fits_append.mp (Forest.fits_append.mp value.fits).2).1
  obtain ⟨k₀, h₀, b₀, before₀, rest₀, header₀, inCore, braceInCore, rfl⟩ :=
    headerAt_of_copy value nodup place ends alike at' copied
  obtain ⟨inside₀, e₀, tail, class₀⟩ := header₀.classAt_of_all wf turn.all
  have memberOf : ofClassAt c₀ k₀ h₀ b₀ inside₀ e₀ ∈ ds :=
    (ClassDecl.mem_all wf turn.all).mpr ⟨_, _, _, _, _, _, _, class₀, rfl⟩
  -- The braces of both are in the value.
  obtain ⟨a₁, inside₁, e₁, z₁, fitsGroup, split⟩ :=
    fits.exists_group (ClassDecl.opens_of_brace header₀.brace) braceInCore
  have group₁ : GroupAt c₀ (y₀ ++ p.1.variableId :: (lead.ids ++ a₁)) b₀ inside₁ e₁
      (z₁ ++ (trail.ids ++ p.1.terminator :: z₀)) := ⟨by simp [value.order, split], fitsGroup⟩
  have group₀ : GroupAt c₀ (before₀ ++ k₀ :: h₀) b₀ inside₀ e₀ tail :=
    ⟨by simp [class₀.order], class₀.fits⟩
  obtain ⟨-, rfl, rfl, -⟩ := group₁.unique wf.order_nodup group₀
  have alike' : ∀ x ∈ (Forest.group b₀ inside₁ e₁ .nil).ids, Alike c₀ d x (name x) := by
    intro x member
    refine alike x ?_
    simp only [split, Forest.ids, List.mem_append, List.mem_cons] at member ⊢
    tauto
  have group' : GroupAt d (left ++ a₁.map name) (name b₀) (inside₁.rename name) (name e₁)
      (z₁.map name ++ semi :: right) :=
    ⟨by simp [place, split, Forest.ids_rename], fitsGroup.rename alike'⟩
  obtain ⟨-, rfl, -⟩ := group.unique nodup group'
  rw [ClassDecl.outline_copy fitsGroup.2.1 fun x member => alike' x (by simp [Forest.ids, member]),
    active_rename] at active
  refine ⟨_, turn.mem_todo memberOf ?_, active, fun q default' => ?_⟩
  · obtain ⟨first, second⟩ := turn.default_order turn.mem member
    have third : c₀.order.idxOf p.1.variableId < c₀.order.idxOf k₀ :=
      idxOf_lt_of_split wf.order_nodup value.order (by simp [inCore])
    exact Nat.lt_trans first (Nat.lt_trans second third)
  · have standing : Standing c₀ c₀ ds (ofClassAt c₀ k₀ h₀ b₀ inside₁ e₁) := (turn.read memberOf).standing
    obtain ⟨l', body, r', more, stands⟩ := standing
    obtain ⟨-, rfl, -⟩ := group₀.unique wf.order_nodup stands.group
    obtain ⟨g₁, m, g₂, -, -, same, -⟩ := stands.spans q default'
    rw [split, same]
    simp [Forest.ids]

/-! ### Copies among new nodes -/

theorem exists_name {ids ids' : List NodeId} (nodup : ids.Nodup) (length : ids.length = ids'.length) :
    ∃ name : NodeId → NodeId, ids.map name = ids' := by
  induction ids generalizing ids' with
  | nil => exact ⟨fun x => x, (List.length_eq_zero_iff.mp length.symm).symm⟩
  | cons x ids ih =>
    cases ids' with
    | nil => simp at length
    | cons y ids' =>
      obtain ⟨out, nodup⟩ := List.nodup_cons.mp nodup
      obtain ⟨name, rfl⟩ := ih nodup (Nat.succ.inj length)
      refine ⟨fun z => if z = x then y else name z, ?_⟩
      rw [List.map_cons, if_pos rfl]
      refine congrArg _ (List.map_congr_left fun z member => if_neg ?_)
      rintro rfl
      exact out member

theorem alike_of_tokens {ids : List NodeId} {ts : List Token} {source target : Text}
    (tokens : ids.map c.token? = ts.map some)
    (tokens' : (ids.map name).map d.token? = (ts.map (reindent source target)).map some) :
    ∀ x ∈ ids, Alike c d x (name x) := by
  induction ids generalizing ts with
  | nil => simp
  | cons x ids ih =>
    obtain ⟨t, ts, rfl, token, rest⟩ := List.map_eq_cons_iff.mp tokens.symm
    simp only [List.map_cons] at tokens'
    obtain ⟨token', rest'⟩ := List.cons.inj tokens'
    intro y member
    rcases List.mem_cons.mp member with rfl | later
    · exact ⟨t, _, token.symm, token', reindent_cases source target t⟩
    · exact ih rest.symm rest' y later

/-- The tokens are those of a value, indented anew. -/
def IsCopy (c₀ : Chain) (cls : ClassDecl) (s : List Token) : Prop :=
  ∃ p ∈ movable cls, ∃ lead core trail y₀ z₀, ∃ ts : List Token, ∃ source target,
    ValueAt c₀ p lead core trail y₀ z₀ ∧ core.ids.map c₀.token? = ts.map some ∧
      s = ts.map (reindent source target)

/-- A class among new nodes that the rule would work on has been copied from a class on which the
rule will fail. -/
theorem Turn.copied_gone (turn : Turn c₀ ds fin cls todo) (inv : Inv c₀ ds fin todo c)
    {tokens : List Token} {ids : List NodeId} (inserted : Chain.Inserted c d left tokens right ids)
    (traced : Traced (IsCopy c₀ cls) tokens)
    (gone : ∀ p ∈ movable cls, ∀ lead core trail y₀ z₀, ValueAt c₀ p lead core trail y₀ z₀ →
      ∀ x ∈ core.ids, x ∉ c.order)
    (at' : HeaderAt d before k header b rest) (new : k ∈ ids)
    (group : GroupAt d l b inside e r) (active : Active (outline d inside)) :
    ∃ cls' ∈ todo, Active cls'.members ∧ Gone d cls' := by
  have nodup := inserted.roomy.wellFormed.order_nodup
  obtain ⟨pre, post, rfl⟩ := List.append_of_mem new
  have tokensOf := inserted.tokens
  rw [List.map_append, List.map_cons] at tokensOf
  obtain ⟨front, behind, rfl, frontOf, tailOf⟩ := List.map_eq_append_iff.mp tokensOf.symm
  obtain ⟨t, back, rfl, token, backOf⟩ := List.map_eq_cons_iff.mp tailOf
  have keyword : t.isKeyword "class" = true := by
    have keyword := at'.keyword
    rwa [Chain.tokenIs_of_token? token.symm] at keyword
  obtain ⟨a, u, v, z, copy, rfl, rfl⟩ := traced front t back rfl keyword
  obtain ⟨p, member, lead, core, trail, y₀, z₀, ts, source, target, value, originals, copies⟩ := copy
  rw [List.map_append] at frontOf backOf
  obtain ⟨ids₁, ids₂, rfl, -, second⟩ := List.map_eq_append_iff.mp frontOf.symm
  obtain ⟨ids₃, tail, rfl, third, last⟩ := List.map_eq_append_iff.mp backOf.symm
  obtain ⟨semi, ids₄, rfl, mark, -⟩ := List.map_eq_cons_iff.mp last
  have tokens' : (ids₂ ++ k :: ids₃).map d.token? = (ts.map (reindent source target)).map some := by
    rw [← copies, List.map_append, List.map_cons, second, third, ← token]
    simp
  have coreNodup : core.ids.Nodup := by
    refine List.Nodup.sublist ?_ turn.base.wellFormed.order_nodup
    rw [value.order, Forest.ids_append, Forest.ids_append]
    refine List.sublist_append_of_sublist_right (List.Sublist.cons _ ?_)
    simp only [List.append_assoc]
    exact List.sublist_append_of_sublist_right (List.sublist_append_left _ _)
  have length : core.ids.length = (ids₂ ++ k :: ids₃).length := by
    have first := congrArg List.length originals
    have other := congrArg List.length tokens'
    simp only [List.length_map] at first other
    rw [first, other]
  obtain ⟨name, named⟩ := exists_name coreNodup length
  have alike := alike_of_tokens originals (by rw [named]; exact tokens')
  have place : d.order = (left ++ ids₁) ++ (core.ids.map name ++ semi :: (ids₄ ++ right)) := by
    simp [inserted.order, named]
  have ends : d.tokenIs (·.isPunctuation ';') semi = true := by
    rw [Chain.tokenIs_of_token? mark]
    decide
  obtain ⟨cls', later, active', inside'⟩ := turn.copied member value nodup place ends alike at'
    (by simp [named]) group active
  obtain ⟨q, default⟩ := List.exists_mem_of_ne_nil _ (movable_eq ▸ active'.1)
  have inCore := inside' q default
  have known : c.Known q.1.variableId :=
    inv.known (turn.base.wellFormed.known_of_mem_order (by simp [value.order, inCore]))
  have out := gone p member _ _ _ _ _ value _ inCore
  refine ⟨cls', later, active', q, default, .inl fun present => ?_⟩
  rw [inserted.order] at present
  rw [inserted.before] at out
  have old : q.1.variableId ∉ _ := fun new => inserted.fresh _ new known
  simp only [List.mem_append] at present out old
  tauto

end ConstructorDefaults

end Restyle
