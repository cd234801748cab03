import Restyle.Proofs.Class.Slices
import Restyle.Proofs.Class.Swap
import Restyle.Proofs.Group.Balance
import Restyle.Proofs.Lexer.Lossless

/-!
# Where the parts of a class stand

The items of a class body come one after another along the links, and so do the runs that members are
read from. Hence the parts of a property stand in their order on top of the body, and no member starts
before the one in front of it has ended (`WellPlaced`). `classes_well_placed` says this of all classes
that are found, and that only brackets that do not fit keep them from being found.
-/

namespace Restyle
open Trail (IsPath)
open Outcome

namespace Chain
variable {c : Chain} {a b x : NodeId}

def Precedes (c : Chain) (a b : NodeId) : Prop :=
  ∃ before between after, c.order = before ++ a :: (between ++ b :: after)

theorem Precedes.trans (nodup : c.order.Nodup) (first : c.Precedes a b) (second : c.Precedes b x) :
    c.Precedes a x := by
  obtain ⟨before, between, after, order⟩ := first
  obtain ⟨before', between', after', order'⟩ := second
  have split : c.order = (before ++ a :: between) ++ b :: after := by simp [order]
  obtain ⟨-, rfl⟩ := split_unique nodup split order'
  exact ⟨before, between ++ b :: between', after', by simp [order]⟩

theorem precedes_of_mem {left right : List NodeId} (order : c.order = left ++ a :: right)
    (member : b ∈ right) : c.Precedes a b := by
  obtain ⟨between, after, rfl⟩ := List.append_of_mem member
  exact ⟨left, between, after, order⟩

/-- The node is strictly between the brackets of a group and in none of the groups there. The
brackets of those count as outside of them. -/
def OnTop (c : Chain) (body : Group) (x : NodeId) : Prop :=
  ∃ before after, c.span body.opener body.closer =
      .ok (body.opener :: ((before ++ x :: after) ++ [body.closer])) ∧
    min (c.level before) (c.level (before ++ [x])) = 0

end Chain

/-! ### The items of a forest -/

namespace Forest
variable {c : Chain} {f : Forest} {i : Item} {left right : List NodeId}

theorem items_precede (order : c.order = left ++ (f.ids ++ right)) :
    f.items.Pairwise fun i j => c.Precedes i.last j.first := by
  induction f generalizing left with
  | nil => exact .nil
  | atom x rest ih =>
    have split : c.order = left ++ x :: (rest.ids ++ right) := order
    have behind : c.order = (left ++ [x]) ++ (rest.ids ++ right) := by simp [split]
    refine .cons (fun j member => ?_) (ih behind)
    exact Chain.precedes_of_mem split (List.mem_append_left _ (item_ids member).1)
  | group o inside e rest _ ih =>
    have split : c.order = (left ++ o :: inside.ids) ++ e :: (rest.ids ++ right) := by
      simp [order, ids]
    have behind : c.order = (left ++ o :: (inside.ids ++ [e])) ++ (rest.ids ++ right) := by
      simp [split]
    refine .cons (fun j member => ?_) (ih behind)
    exact Chain.precedes_of_mem split (List.mem_append_left _ (item_ids member).1)

theorem item_forward (order : c.order = left ++ (f.ids ++ right)) (member : i ∈ f.items) :
    i.first = i.last ∨ c.Precedes i.first i.last := by
  obtain ⟨f₁, g, f₂, rfl, single⟩ := exists_item member
  cases i with
  | atom x => exact .inl rfl
  | group h =>
    obtain ⟨inside, rfl⟩ := eq_group_of_items single
    refine .inr ⟨left ++ f₁.ids, inside.ids, f₂.ids ++ right, ?_⟩
    simp [order, ids, Item.first, Item.last]

section OnTop
variable {o e : NodeId} (wf : c.WellFormed) (opens : Group.Opens c o f e)
include wf opens

theorem onTop_of_split {before after : List NodeId} {x : NodeId} (split : f.ids = before ++ x :: after)
    (top : min (c.level before) (c.level (before ++ [x])) = 0) : c.OnTop (.mk o e f.groups) x :=
  ⟨before, after, by rw [← split]; exact opens.span_eq wf, top⟩

/-- Both ends of an item of a body are on top of it. -/
theorem item_onTop (member : i ∈ f.items) :
    c.OnTop (.mk o e f.groups) i.first ∧ c.OnTop (.mk o e f.groups) i.last := by
  have fits := opens.fits.2.1
  obtain ⟨f₁, g, f₂, rfl, single⟩ := exists_item member
  simp only [fits_append] at fits
  have zero := fits.1.level_ids
  cases i with
  | atom x =>
    obtain rfl := eq_atom_of_items single
    have plain := fits.2.1.1.2
    have split : (f₁ ++ (atom x nil ++ f₂)).ids = f₁.ids ++ x :: f₂.ids := by simp [ids]
    have top := onTop_of_split wf opens split
      (by rw [level_append, zero, level_of_plain plain.1 plain.2]; rfl)
    exact ⟨top, top⟩
  | group h =>
    obtain ⟨inside, rfl⟩ := eq_group_of_items single
    obtain ⟨⟨bracket, opener, closer⟩, fitsInside, -⟩ := fits.2.1
    obtain ⟨closes, plain⟩ := closes_of_bracket opener closer
    have up := level_of_opens (opens_of_bracket opener)
    have down := level_of_closes closes plain
    have within : c.level (f₁.ids ++ h.opener :: inside.ids) = 1 := by
      rw [level_append, zero, level_cons, up, fitsInside.level_ids]
      rfl
    have ids₁ : (f₁ ++ (group h.opener inside h.closer nil ++ f₂)).ids =
        f₁.ids ++ h.opener :: (inside.ids ++ h.closer :: f₂.ids) := by simp [ids]
    have ids₂ := ids₁
    rw [← List.cons_append, ← List.append_assoc] at ids₂
    have first : min (c.level f₁.ids) (c.level (f₁.ids ++ [h.opener])) = 0 := by
      rw [level_append, zero, up]
      rfl
    have last : min (c.level (f₁.ids ++ h.opener :: inside.ids))
        (c.level (f₁.ids ++ h.opener :: inside.ids ++ [h.closer])) = 0 := by
      rw [level_append (l := f₁.ids ++ h.opener :: inside.ids), within, down]
      rfl
    exact ⟨onTop_of_split wf opens ids₁ first, onTop_of_split wf opens ids₂ last⟩

end OnTop

end Forest

/-! ### Runs of items -/

namespace Member
variable {c : Chain} {p : Item → Bool} {R : Item → Item → Prop} {l run : List Item} {s : NodeId}

theorem runs_flatten (p : Item → Bool) (l : List Item) : ∃ rest, l = (runs p l).flatten ++ rest := by
  induction h : l.length using Nat.strong_induction_on generalizing l with
  | _ n ih =>
    subst h
    rcases quiet_or_cut p l with quiet | ⟨q, x, l, rfl, quiet, ends⟩
    · exact ⟨l, by rw [runs_of_quiet quiet, List.flatten_nil, List.nil_append]⟩
    · obtain ⟨rest, same⟩ := ih l.length (by simp only [List.length_append, List.length_cons]; omega) l rfl
      refine ⟨rest, ?_⟩
      rw [runs_cut quiet ends, List.flatten_cons, List.append_assoc, ← same]
      simp

/-- What relates earlier items to later ones relates those of earlier runs to those of later runs. -/
theorem runs_pairwise (sorted : l.Pairwise R) :
    (∀ run ∈ runs p l, run.Pairwise R) ∧
      (runs p l).Pairwise fun run run' => ∀ i ∈ run, ∀ j ∈ run', R i j := by
  obtain ⟨rest, same⟩ := runs_flatten p l
  rw [same] at sorted
  exact List.pairwise_flatten.mp (List.pairwise_append.mp sorted).1

theorem valueOf_some {rest : List Item} {v : Initializer} (found : valueOf c rest = some v) :
    ∃ sign value first last, rest = .atom sign :: value ∧ value.head? = some first ∧
      value.getLast? = some last ∧ v.first = first.first ∧ v.last = last.last := by
  unfold valueOf at found
  split at found
  · rename_i sign value
    split at found
    · split at found
      · rename_i first last head final
        obtain rfl := Option.some.inj found
        exact ⟨sign, value, first, last, rfl, head, final, rfl, rfl⟩
      · cases found
    · cases found
  · cases found

end Member

/-! ### Properties -/

structure Property.WellPlaced (c : Chain) (body : Group) (p : Property) : Prop where
  start : p.start = p.variableId ∨ c.Precedes p.start p.variableId
  ends : c.Precedes p.variableId p.terminator
  semicolon : c.tokenIs (·.isPunctuation ';') p.terminator = true
  onTop : ∀ x ∈ [p.start, p.variableId, p.terminator], c.OnTop body x
  value : ∀ v, p.value = some v →
    c.Precedes p.variableId v.first ∧ (v.first = v.last ∨ c.Precedes v.first v.last) ∧
    c.Precedes v.last p.terminator ∧ c.OnTop body v.first ∧ c.OnTop body v.last ∧
    ∃ core : Forest, core.Fits c ∧ c.span v.first v.last = .ok core.ids

namespace ClassDecl
variable {c : Chain} {before header rest : List NodeId} {k b e : NodeId} {inside : Forest}

/-- The parts of a class stand in their order, and no member starts before the ones in front of it
have ended. -/
structure WellPlaced (c : Chain) (d : ClassDecl) : Prop where
  keyword : c.Precedes d.keyword d.body.opener
  brace : c.tokenIs (·.isPunctuation '{') d.body.opener = true
  body : c.Precedes d.body.opener d.body.closer
  properties : ∀ p ∈ d.properties, p.WellPlaced c d.body
  starts : (d.members.filterMap Member.start?).Pairwise c.Precedes
  ends : d.members.Pairwise fun m m' =>
    ∀ p, m = .property p → ∀ s, m'.start? = some s → c.Precedes p.terminator s

structure InOrder (c : Chain) (body : Group) (items : List Item) : Prop where
  precede : items.Pairwise fun i j => c.Precedes i.last j.first
  forward : ∀ i ∈ items, i.first = i.last ∨ c.Precedes i.first i.last
  onTop : ∀ i ∈ items, c.OnTop body i.first ∧ c.OnTop body i.last

section InOrder
variable {body : Group} {items : List Item} {i j : Item}

theorem InOrder.sublist {fewer : List Item} (inOrder : InOrder c body items)
    (sublist : fewer.Sublist items) : InOrder c body fewer :=
  ⟨inOrder.precede.sublist sublist, fun i member => inOrder.forward i (sublist.subset member),
    fun i member => inOrder.onTop i (sublist.subset member)⟩

theorem first_precedes (nodup : c.order.Nodup) (forward : i.first = i.last ∨ c.Precedes i.first i.last)
    (precedes : c.Precedes i.last j.first) : c.Precedes i.first j.first := by
  rcases forward with same | forward
  · rwa [same]
  · exact forward.trans nodup precedes

/-- From the start of the first item to the end of the last. -/
theorem InOrder.ends (nodup : c.order.Nodup) (inOrder : InOrder c body items)
    (head : items.head? = some i) (last : items.getLast? = some j) :
    i.first = j.last ∨ c.Precedes i.first j.last := by
  obtain ⟨tail, rfl⟩ := List.head?_eq_some_iff.mp head
  rcases List.eq_nil_or_concat tail with rfl | ⟨between, x, rfl⟩
  · obtain rfl := Option.some.inj last
    exact inOrder.forward i List.mem_cons_self
  · rw [List.concat_eq_append, ← List.cons_append] at last inOrder
    rw [List.getLast?_concat] at last
    obtain rfl := Option.some.inj last
    have apart := first_precedes nodup (inOrder.forward i (by simp))
      ((List.pairwise_append.mp inOrder.precede).2.2 i List.mem_cons_self x (List.mem_singleton_self x))
    rcases inOrder.forward x (by simp) with same | forward
    · exact .inr (same ▸ apart)
    · exact .inr (apart.trans nodup forward)

/-- The parts of a property, where its items are in order. -/
theorem InOrder.property {q : List Item} {x : Item} {p : Property} (nodup : c.order.Nodup)
    (inOrder : InOrder c body (q ++ [x]))
    (braces : ∀ g, x = .group g → c.tokenIs (·.isPunctuation ';') g.closer = false)
    (is : Member.ofItems c (q ++ [x]) = .property p)
    (balanced : ∀ v, p.value = some v → ∃ core : Forest, core.Fits c ∧
      c.span v.first v.last = .ok core.ids) : p.WellPlaced c body := by
  obtain ⟨start, head, starts⟩ := Member.start?_ofItems (s := p.start) (by rw [is]; rfl)
  obtain ⟨modifiers, rest, rfl, rfl, -, semicolon, value, -⟩ := Member.ofItems_property braces is
  have shape : (modifiers ++ Item.atom p.variableId :: rest) ++ [Item.atom p.terminator] =
      modifiers ++ Item.atom p.variableId :: (rest ++ [Item.atom p.terminator]) := by simp
  rw [shape] at inOrder head
  have ordered := List.pairwise_append.mp inOrder.precede
  have behind := List.pairwise_cons.mp ordered.2.1
  have top := inOrder.onTop
  refine ⟨?_, behind.1 (.atom p.terminator) (by simp), semicolon, ?_, fun v has => ?_⟩
  · cases modifiers with
    | nil =>
      obtain rfl := Option.some.inj head
      exact .inl starts
    | cons m modifiers =>
      obtain rfl := Option.some.inj head
      rw [starts]
      exact .inr (first_precedes (j := .atom p.variableId) nodup
        (inOrder.forward m (by simp)) (ordered.2.2 m (by simp) _ (by simp)))
  · simp only [List.mem_cons, List.not_mem_nil, or_false]
    rintro _ (rfl | rfl | rfl)
    · rw [starts]
      exact (top start (List.mem_of_mem_head? head)).1
    · exact (top (.atom p.variableId) (by simp)).1
    · exact (top (.atom p.terminator) (by simp)).1
  · rw [has] at value
    obtain ⟨sign, items, first, last, rfl, headOf, lastOf, atFirst, atLast⟩ :=
      Member.valueOf_some value.symm
    have firstIn : first ∈ items := List.mem_of_mem_head? headOf
    have lastIn : last ∈ items := List.mem_of_getLast? lastOf
    have valueInOrder : InOrder c body items := inOrder.sublist (by
      refine List.sublist_append_of_sublist_right (.cons _ (.cons _ ?_))
      exact List.sublist_append_left items _)
    have before := behind.1 first (by simp [firstIn])
    have after := (List.pairwise_append.mp (List.pairwise_cons.mp behind.2).2).2.2 last lastIn
      (.atom p.terminator) (by simp)
    rw [atFirst, atLast]
    refine ⟨before, valueInOrder.ends nodup headOf lastOf, after, (valueInOrder.onTop _ firstIn).1,
      (valueInOrder.onTop _ lastIn).2, ?_⟩
    rw [← atFirst, ← atLast]
    exact balanced v has

end InOrder

/-! ### Classes -/

/-- The items of a run, the last of which ends a member. -/
theorem exists_of_mem_runs {f : Forest} {run : List Item} (fits : f.Fits c)
    (member : run ∈ Member.runs (Member.isEnd c) (f.significant c)) :
    ∃ q x, run = q ++ [x] ∧ run.Sublist (f.significant c) ∧
      ∀ g, x = .group g → c.tokenIs (·.isPunctuation ';') g.closer = false := by
  obtain ⟨done, later, split⟩ := List.append_of_mem member
  obtain ⟨front, q, x, back, whole, rfl, -⟩ := Member.runs_eq_append split
  refine ⟨q, x, rfl, ?_, ?_⟩
  · rw [whole]
    exact (List.sublist_append_right front _).trans (List.sublist_append_left _ back)
  · rintro g rfl
    exact semicolon_of_closer fits ((Forest.mem_significant (c := c)).mp (by simp [whole])).1

/-- The last item of a property is its semicolon. -/
theorem terminator_mem {f : Forest} {run : List Item} {p : Property} (fits : f.Fits c)
    (member : run ∈ Member.runs (Member.isEnd c) (f.significant c))
    (is : Member.ofItems c run = .property p) : Item.atom p.terminator ∈ run := by
  obtain ⟨q, x, rfl, -, braces⟩ := exists_of_mem_runs fits member
  obtain ⟨-, -, -, rfl, -⟩ := Member.ofItems_property braces is
  simp

section ClassAt
variable (wf : c.WellFormed) (at' : ClassAt c before k header b inside e rest)
include wf at'

theorem ClassAt.inOrder : InOrder c (.mk b e inside.groups) inside.items := by
  have order : c.order = (before ++ k :: (header ++ [b])) ++ (inside.ids ++ e :: rest) := by
    simp [at'.order]
  exact ⟨Forest.items_precede order, fun i member => Forest.item_forward order member,
    fun i member => Forest.item_onTop wf (at'.opens wf) member⟩

/-- The value of a property is a span whose brackets fit. -/
theorem ClassAt.balanced {p : Property} {v : Initializer} (member : .property p ∈ membersOf c inside)
    (has : p.value = some v) :
    ∃ core : Forest, core.Fits c ∧ c.span v.first v.last = .ok core.ids := by
  obtain ⟨done, later, split⟩ := List.append_of_mem member
  obtain ⟨f₁, lead, core, trail, f₂, rfl, default, -⟩ := exists_default at'.fits.2.1 split has
  have fits := at'.fits.2.1
  simp only [Forest.fits_append, Forest.Fits] at fits
  have order : c.order = (before ++ k :: (header ++ b :: (f₁.ids ++ p.variableId :: lead.ids))) ++
      core.ids ++ (trail.ids ++ p.terminator :: (f₂.ids ++ e :: rest)) := by
    simp [at'.order, Forest.ids]
  exact ⟨core, fits.2.2.1.2.1, wf.span_of_order order default.starts default.ends⟩

theorem ClassAt.wellPlaced : (ofClassAt c k header b inside e).WellPlaced c := by
  have nodup := wf.order_nodup
  have fits := at'.fits.2.1
  have inOrder := at'.inOrder wf
  have significant : InOrder c (.mk b e inside.groups) (inside.significant c) :=
    inOrder.sublist List.filter_sublist
  have between := (Member.runs_pairwise (p := Member.isEnd c) significant.precede).2
  refine ⟨⟨before, header, inside.ids ++ e :: rest, at'.order⟩, at'.brace,
    ⟨before ++ k :: header, inside.ids, rest, by simp [at'.order, ofClassAt, Group.opener, Group.closer]⟩,
    fun p member => ?_, ?_, ?_⟩
  · have member : Member.property p ∈ membersOf c inside := by
      obtain ⟨m, inside, is⟩ := List.mem_filterMap.mp member
      cases m with
      | property p' => rwa [← Option.some.inj is]
      | method m => cases is
      | other => cases is
    obtain ⟨run, runIn, is⟩ := List.mem_map.mp (membersOf_eq c inside ▸ member)
    obtain ⟨q, x, rfl, sublist, braces⟩ := exists_of_mem_runs fits runIn
    exact (significant.sublist sublist).property nodup braces is fun v has =>
      at'.balanced wf member has
  · rw [List.pairwise_filterMap]
    show (membersOf c inside).Pairwise _
    rw [membersOf_eq, List.pairwise_map]
    refine between.imp_of_mem fun {run run'} runIn _ apart => ?_
    intro s starts s' starts'
    obtain ⟨i, head, rfl⟩ := Member.start?_ofItems starts
    obtain ⟨j, head', rfl⟩ := Member.start?_ofItems starts'
    have member := List.mem_of_mem_head? head
    obtain ⟨-, -, -, sublist, -⟩ := exists_of_mem_runs fits runIn
    exact first_precedes nodup (significant.forward i (sublist.subset member))
      (apart i member j (List.mem_of_mem_head? head'))
  · show (membersOf c inside).Pairwise _
    rw [membersOf_eq, List.pairwise_map]
    refine between.imp_of_mem fun {run run'} runIn _ apart => ?_
    intro p is s starts
    obtain ⟨j, head, rfl⟩ := Member.start?_ofItems starts
    exact apart _ (terminator_mem fits runIn is) j (List.mem_of_mem_head? head)

end ClassAt

/-! ### Reading all of them -/

/-- The walk over a header comes to its end by itself. -/
theorem header_ended (wf : c.WellFormed) (member : k ∈ c.order)
    (keyword : c.tokenIs (·.isKeyword "class") k = true) :
    c.tokenIs endsHeader (ClassDecl.header c k).last = true ∨
      (c.nextVisible (ClassDecl.header c k).last).toOption = none := by
  obtain ⟨before, after, order⟩ := List.append_of_mem member
  cases first : after.find? (c.tokenIs endsHeader) with
  | none =>
    have quiet : ∀ x ∈ after, c.tokenIs endsHeader x = false := by
      simpa using List.find?_eq_none.mp first
    obtain ⟨known, run⟩ := wf.run_of_order order
    rw [last_header_of_quiet wf order keyword quiet]
    exact .inr (wf.path_visible known run).2
  | some b =>
    rw [last_header_of_find? wf order keyword first]
    exact .inl (List.find?_some first)

/-- The classes of a chain are read without a walk that a bound has to end and without a cut that is
out of range, and only brackets that do not fit keep them from being read. The parts of each class
and of its properties stand in their order along the links. -/
theorem classes_well_placed (wf : c.WellFormed) :
    (∀ k ∈ c.order, c.tokenIs (·.isKeyword "class") k = true → ∀ n ≥ c.size,
      Trail.walk (fun id => (c.nextVisible id).toOption) (c.tokenIs endsHeader) n k =
        ClassDecl.header c k) ∧
    (∀ items, Member.byPlaces? c items = some (Member.ofItems c items)) ∧
    (∀ err, all c = .error err → ∃ node text bracket, err = .openGroup node text bracket) ∧
    ∀ ds, all c = .ok ds → ∀ d ∈ ds, d.WellPlaced c := by
  refine ⟨fun k member keyword n enough => ?_, Member.byPlaces?_eq c, fun err failed => ?_,
    fun ds ok d member => ?_⟩
  · exact Trail.walk_eq_of_ended enough (header_ended wf member keyword)
  · exact all_isOpenGroup wf failed
  · obtain ⟨before, k, header, b, inside, e, rest, at', rfl⟩ := (mem_all wf ok).mp member
    exact at'.wellPlaced wf

/-- The value of the first property is a group, and a method comes after it. A class that is left
open is not read. -/
theorem classes_well_placed_list : (∃ c ds d p v,
      Chain.ofSource? .development "<?php class A{public $x=[1];function f(){}}".toList = some c ∧
      c.WellFormed ∧ all c = .ok ds ∧ d ∈ ds ∧ d.members.length = 2 ∧ p ∈ d.properties ∧
      p.value = some v ∧ d.WellPlaced c ∧ c.Precedes v.first v.last) ∧
    ∃ c node text bracket, Chain.ofSource? .development "<?php class A{(}".toList = some c ∧
      c.WellFormed ∧ all c = .error (.openGroup node text bracket) := by
  have valid : Limits.development.validate "development" = .ok () := by decide
  constructor
  · have checked : (Chain.ofSource? .development
        "<?php class A{public $x=[1];function f(){}}".toList).any (fun c =>
          (all c).toOption.any (fun ds => ds.any fun d => d.members.length == 2 &&
            d.properties.any fun p => p.value.any fun v => v.first != v.last)) = true := by
      decide +kernel
    obtain ⟨c, read, checked⟩ := (Option.any_eq_true ..).mp checked
    obtain ⟨ds, found, checked⟩ := (Option.any_eq_true ..).mp checked
    obtain ⟨d, member, checked⟩ := List.any_eq_true.mp checked
    obtain ⟨two, checked⟩ := Bool.and_eq_true_iff.mp checked
    obtain ⟨p, property, checked⟩ := List.any_eq_true.mp checked
    obtain ⟨v, has, long⟩ := (Option.any_eq_true ..).mp checked
    obtain ⟨_, _, -, -, -, threaded⟩ := Chain.exists_threaded valid read
    have wf := threaded.wellFormed
    have ok : all c = .ok ds := toOption_some.mp found
    have placed := (classes_well_placed wf).2.2.2 ds ok d member
    obtain ⟨-, forward, -⟩ := (placed.properties p property).value v has
    exact ⟨c, ds, d, p, v, read, wf, ok, member, beq_iff_eq.mp two, property, has, placed,
      forward.resolve_left (bne_iff_ne.mp long)⟩
  · have checked : (Chain.ofSource? .development "<?php class A{(}".toList).any
        (fun c => (all c).toOption.isNone) = true := by decide +kernel
    obtain ⟨c, read, failed⟩ := (Option.any_eq_true ..).mp checked
    obtain ⟨_, _, -, -, -, threaded⟩ := Chain.exists_threaded valid read
    have wf := threaded.wellFormed
    cases outcome : all c with
    | ok ds =>
      rw [outcome] at failed
      cases failed
    | error err =>
      obtain ⟨node, text, bracket, rfl⟩ := (classes_well_placed wf).2.2.1 err outcome
      exact ⟨c, node, text, bracket, read, wf, outcome⟩

end ClassDecl

end Restyle
