import Restyle.Proofs.Chain.Join
import Restyle.Proofs.Group.Balance

/-!
# Spans cut into items

The nodes of a span fall into single nodes and groups in at most one way (`Pieces.drop`), and they
do so unless a group on top of the span is not closed within it (`exists_pieces_iff`). `sequence`
finds these items: `sequence_partitions`. A closing bracket that closes nothing in the span is a
single node like any other, so a span that can be cut need not be a forest.
-/

namespace Restyle
open Trail (IsPath)
open Outcome

namespace Group
variable {c : Chain} {o e e' : NodeId} {f g : Forest}

/-- An opening bracket has one group. -/
theorem Opens.unique (wf : c.WellFormed) (opens : Opens c o f e) (opens' : Opens c o g e') :
    f.ids = g.ids ∧ e = e' := by
  have parsed := (parse_ok_iff wf).mpr ⟨f, e, opens, rfl⟩
  rw [(parse_ok_iff wf).mpr ⟨g, e', opens', rfl⟩] at parsed
  obtain ⟨-, rfl, -⟩ := Group.mk.inj (Option.some.inj (Except.ok.inj parsed))
  have span := opens.span_eq wf
  rw [opens'.span_eq wf, Except.ok.injEq, List.cons.injEq] at span
  exact ⟨(List.append_cancel_right span.2).symm, rfl⟩

theorem Opens.opens (opens : Opens c o f e) : c.opens o = true := by
  obtain ⟨⟨bracket, opener, -⟩, -⟩ := opens.fits
  exact Forest.opens_of_bracket opener

end Group

namespace Item
variable {c : Chain} {x o e finish first last : NodeId} {l m before after rest : List NodeId}
  {items more : List Item} {acc found : Array Item} {inside : Forest}

/-- These nodes fall into these items: nodes that open nothing, and groups that close among them. -/
inductive Pieces (c : Chain) : List NodeId → List Item → Prop
  | nil : Pieces c [] []
  | atom {x : NodeId} {l : List NodeId} {items : List Item} (known : c.Known x)
    (plain : c.opens x = false) (rest : Pieces c l items) : Pieces c (x :: l) (.atom x :: items)
  | group {o e : NodeId} {inside : Forest} {l : List NodeId} {items : List Item}
    (opens : Group.Opens c o inside e) (rest : Pieces c l items) :
    Pieces c (o :: (inside.ids ++ e :: l)) (.group (.mk o e inside.groups) :: items)

/-! ### The items that are found -/

theorem split_pieces (wf : c.WellFormed) (pieces : Pieces c l items) :
    split c finish (l ++ rest) none acc = split c finish rest none (acc ++ items.toArray) := by
  induction pieces generalizing acc with
  | nil => simp
  | atom known plain _ ih =>
    rw [List.cons_append, split_atom known plain, ih]
    simp
  | group opens _ ih =>
    rw [List.cons_append, List.append_assoc, List.cons_append, split_open wf opens (opens.ne wf),
      split_skip (opens.not_mem wf), ih]
    simp

/-- Where an item is awaited, its last node is found. -/
theorem exists_of_split_awaited (ok : split c finish l (some e) acc = .ok found) :
    ∃ before after, l = before ++ e :: after ∧ split c finish after none acc = .ok found := by
  induction l with
  | nil => simp [split] at ok
  | cons x l ih =>
    rw [split] at ok
    split at ok
    · rename_i same
      exact ⟨[], l, by rw [same, List.nil_append], ok⟩
    · obtain ⟨before, after, rfl, rest⟩ := ih ok
      exact ⟨x :: before, after, rfl, rest⟩

theorem exists_pieces_of_split (wf : c.WellFormed) (path : IsPath c.next? l)
    (ok : split c finish l none acc = .ok found) :
    ∃ items, Pieces c l items ∧ found = acc ++ items.toArray := by
  induction h : l.length using Nat.strong_induction_on generalizing l acc with
  | _ n ih =>
    subst h
    cases l with
    | nil => exact ⟨[], .nil, by simpa [split] using ok.symm⟩
    | cons x l =>
      cases parsed : Group.parse c x with
      | error err => simp [split, startingAt, parsed, bind, Except.bind] at ok
      | ok group =>
        cases group with
        | none =>
          obtain ⟨known, plain⟩ := Group.parse_none_iff.mp parsed
          rw [split_atom known plain] at ok
          obtain ⟨items, pieces, rfl⟩ := ih l.length (by simp) path.of_cons ok rfl
          exact ⟨.atom x :: items, .atom known plain pieces, by simp⟩
        | some g =>
          obtain ⟨inside, e, opens, rfl⟩ := (Group.parse_ok_iff wf).mp parsed
          rw [split_open wf opens (opens.ne wf)] at ok
          obtain ⟨before, after, rfl, rest⟩ := exists_of_split_awaited ok
          -- Both are paths from the opener to the closer.
          have whole : IsPath c.next? ((x :: (before ++ [e])) ++ after) := by simpa using path
          have span : c.span x e = .ok (x :: (before ++ [e])) :=
            wf.span_ok.mpr ⟨opens.known wf x (by simp), opens.known wf e (by simp), whole.left, rfl,
              by rw [← List.cons_append, List.getLast?_concat]⟩
          rw [opens.span_eq wf, Except.ok.injEq, List.cons.injEq] at span
          obtain rfl := List.append_cancel_right span.2
          obtain ⟨items, pieces, rfl⟩ := ih after.length
            (by simp only [List.length_cons, List.length_append]; omega) whole.right rest rfl
          exact ⟨_ :: items, .group opens pieces, by simp⟩

theorem sequence_ok_iff (wf : c.WellFormed) : sequence c first last = .ok items ↔
    ∃ l, c.span first last = .ok l ∧ Pieces c l items := by
  simp only [sequence, bind_ok, pure_ok]
  refine exists_congr fun l => and_congr_right fun span => ?_
  constructor
  · rintro ⟨found, ok, rfl⟩
    obtain ⟨items, pieces, rfl⟩ := exists_pieces_of_split wf (wf.span_ok.mp span).2.2.1 ok
    simpa using pieces
  · intro pieces
    refine ⟨items.toArray, ?_, rfl⟩
    have cut : split c last (l ++ []) none #[] = split c last [] none (#[] ++ items.toArray) :=
      split_pieces wf pieces
    simpa [split] using cut

/-! ### Spans and texts of the items -/

theorem Pieces.spans (wf : c.WellFormed) (pieces : Pieces c l items) :
    ∃ spans : List (List NodeId),
      items.map (fun i => c.span i.first i.last) = spans.map .ok ∧ spans.flatten = l := by
  induction pieces with
  | nil => exact ⟨[], rfl, rfl⟩
  | @atom x l items known plain _ ih =>
    obtain ⟨spans, read, rfl⟩ := ih
    have span : c.span x x = .ok [x] :=
      wf.span_ok.mpr ⟨known, known, Trail.isPath_singleton x, rfl, rfl⟩
    exact ⟨[x] :: spans, congrArg₂ List.cons span read, rfl⟩
  | @group o e inside l items opens _ ih =>
    obtain ⟨spans, read, rfl⟩ := ih
    exact ⟨(o :: (inside.ids ++ [e])) :: spans, congrArg₂ List.cons (opens.span_eq wf) read, by simp⟩

theorem Pieces.isGroup_iff (pieces : Pieces c l items) :
    ∀ i ∈ items, i.isGroup = true ↔ c.opens i.first = true := by
  induction pieces with
  | nil => simp
  | atom known plain _ ih => simpa [isGroup, Item.first, plain] using ih
  | group opens _ ih =>
    simpa [isGroup, Item.first, Group.opener, opens.opens] using ih

theorem map_render (c : Chain) (items : List Item) (spans : List (List NodeId))
    (read : items.map (fun i => c.span i.first i.last) = spans.map .ok) :
    items.map (render c) = (spans.map c.textOfAll).map .ok := by
  have steps : items.map (render c) =
      (items.map fun i => c.span i.first i.last).map (Except.map c.textOfAll) := by
    rw [List.map_map]
    rfl
  rw [steps, read, List.map_map, List.map_map]
  rfl

theorem textOfAll_flatten (c : Chain) (spans : List (List NodeId)) :
    c.textOfAll spans.flatten = (spans.map c.textOfAll).flatten := by
  induction spans with
  | nil => rfl
  | cons l spans ih =>
    rw [List.flatten_cons, List.map_cons, List.flatten_cons, ← ih]
    simp [Chain.textOfAll]

/-! ### Groups on top of a span -/

/-- Every group that is opened on top of these nodes, that is, behind nodes that fall into items, is
closed among them. -/
def ClosesWithin (c : Chain) (l : List NodeId) : Prop :=
  ∀ before o after, l = before ++ o :: after → (∃ items, Pieces c before items) →
    c.opens o = true → ∃ inside e rest, after = inside.ids ++ e :: rest ∧ Group.Opens c o inside e

/-- The items of the first nodes are the first items. -/
theorem Pieces.drop (wf : c.WellFormed) (front : Pieces c before more)
    (pieces : Pieces c (before ++ rest) items) :
    ∃ behind, items = more ++ behind ∧ Pieces c rest behind := by
  induction front generalizing items with
  | nil => exact ⟨items, rfl, pieces⟩
  | @atom x l more known plain _ ih =>
    generalize same : x :: l ++ rest = whole at pieces
    cases pieces with
    | nil => cases same
    | atom known' plain' tail =>
      obtain ⟨rfl, rfl⟩ := List.cons.inj same
      obtain ⟨behind, rfl, further⟩ := ih tail
      exact ⟨behind, rfl, further⟩
    | group opens tail =>
      obtain ⟨rfl, -⟩ := List.cons.inj same
      rw [opens.opens] at plain
      cases plain
  | @group o e inside l more opens _ ih =>
    rw [List.cons_append] at pieces
    generalize same : o :: (inside.ids ++ e :: l ++ rest) = whole at pieces
    cases pieces with
    | nil => cases same
    | atom known plain tail =>
      obtain ⟨rfl, -⟩ := List.cons.inj same
      rw [opens.opens] at plain
      cases plain
    | @group o' e' inside' l' items opens' tail =>
      obtain ⟨rfl, tails⟩ := List.cons.inj same
      obtain ⟨ids, rfl⟩ := opens.unique wf opens'
      obtain rfl := Forest.Fits.eq_of_ids opens.fits.2.1 opens'.fits.2.1 ids
      simp only [List.append_assoc, List.cons_append, List.append_cancel_left_eq, List.cons.injEq,
        true_and] at tails
      subst tails
      obtain ⟨behind, rfl, further⟩ := ih tail
      exact ⟨behind, rfl, further⟩

/-- Nodes fall into items unless a group on top of them is left open. -/
theorem exists_pieces_iff (wf : c.WellFormed) (known : ∀ x ∈ l, c.Known x) :
    (∃ items, Pieces c l items) ↔ ClosesWithin c l := by
  constructor
  · rintro ⟨items, pieces⟩ before o after rfl ⟨more, front⟩ opens
    obtain ⟨behind, -, rest⟩ := front.drop wf pieces
    cases rest with
    | atom _ plain _ =>
      rw [opens] at plain
      cases plain
    | @group _ e inside rest _ opens _ => exact ⟨inside, e, rest, rfl, opens⟩
  · intro closes
    induction h : l.length using Nat.strong_induction_on generalizing l with
    | _ n ih =>
      subst h
      cases l with
      | nil => exact ⟨[], .nil⟩
      | cons x l =>
        by_cases opens : c.opens x = true
        · obtain ⟨inside, e, rest, rfl, group⟩ := closes [] x l rfl ⟨[], .nil⟩ opens
          obtain ⟨items, pieces⟩ := ih rest.length
            (by simp only [List.length_cons, List.length_append]; omega)
            (fun y member => known y (by simp [member]))
            (fun before o after split ⟨more, front⟩ opens' =>
              closes _ o after (by simp [split]) ⟨_, .group group front⟩ opens') rfl
          exact ⟨_, .group group pieces⟩
        · rw [Bool.not_eq_true] at opens
          have here := known x List.mem_cons_self
          obtain ⟨items, pieces⟩ := ih l.length (by simp)
            (fun y member => known y (List.mem_cons_of_mem _ member))
            (fun before o after split ⟨more, front⟩ opens' =>
              closes (x :: before) o after (by simp [split]) ⟨_, .atom here opens front⟩ opens') rfl
          exact ⟨_, .atom here opens pieces⟩

/-! ### Round after round -/

/-- The items of some nodes, one in each round: the one at the first node, and then those behind its
last node, which is searched for. None if the rounds do not suffice. -/
def inRounds (c : Chain) (finish : NodeId) : Nat → List NodeId → Option (Except ChainError (List Item))
  | 0, _ => none
  | _ + 1, [] => some (.ok [])
  | n + 1, id :: rest =>
    match startingAt c id with
    | .error err => some (.error err)
    | .ok item =>
      match (id :: rest).idxOf? item.last with
      | none => some (.error (.noNeighbor finish .next))
      | some offset =>
        (inRounds c finish n ((id :: rest).drop (offset + 1))).map (Except.map (item :: ·))

theorem split_awaited (c : Chain) (finish e : NodeId) (l : List NodeId) (acc : Array Item) :
    split c finish l (some e) acc = match l.idxOf? e with
      | none => .error (.noNeighbor finish .next)
      | some offset => split c finish (l.drop (offset + 1)) none acc := by
  induction l with
  | nil => rfl
  | cons x l ih =>
    rw [split, List.idxOf?_cons]
    by_cases same : x = e
    · simp [same]
    · rw [if_neg same, ih]
      cases found : l.idxOf? e <;> simp [same]

theorem split_acc (c : Chain) (finish : NodeId) (l : List NodeId) (awaited : Option NodeId)
    (acc : Array Item) :
    split c finish l awaited acc = (split c finish l awaited #[]).map (acc ++ ·) := by
  induction l generalizing awaited acc with
  | nil => cases awaited <;> simp [split, Except.map]
  | cons x l ih =>
    cases awaited with
    | some e => exact ih _ _
    | none =>
      simp only [split]
      cases startingAt c x with
      | error err => rfl
      | ok item =>
        simp only
        rw [ih, ih _ (#[].push item)]
        cases split c finish l _ #[] <;> simp [Except.map]

/-- As many rounds as there are nodes suffice, and one to see the end: each round leaves fewer of
them. -/
theorem inRounds_eq (c : Chain) (finish : NodeId) {l : List NodeId} {n : Nat} (enough : l.length < n) :
    inRounds c finish n l = some ((split c finish l none #[]).map Array.toList) := by
  induction n generalizing l with
  | zero => omega
  | succ n ih =>
    cases l with
    | nil => rfl
    | cons x l =>
      rw [inRounds, split]
      cases startingAt c x with
      | error err => rfl
      | ok item =>
        simp only [List.length_cons] at enough
        have shorter : ∀ k, (l.drop k).length < n := by
          intro k
          rw [List.length_drop]
          omega
        by_cases single : item.last = x
        · simp only [List.idxOf?_cons, single, beq_self_eq_true, if_true, List.drop_succ_cons]
          rw [ih (shorter 0), List.drop_zero, List.push_toArray, List.nil_append,
            split_acc c finish l none #[item]]
          cases split c finish l none #[] <;> simp [Except.map]
        · simp only [List.idxOf?_cons, beq_eq_false_iff_ne.mpr (Ne.symm single), if_neg single,
            split_awaited]
          cases found : l.idxOf? item.last with
          | none => rfl
          | some offset =>
            simp only [Option.map_some, Bool.false_eq_true, if_false, List.drop_succ_cons]
            rw [ih (shorter _), List.push_toArray, List.nil_append,
              split_acc c finish (l.drop (offset + 1)) none #[item]]
            cases split c finish (l.drop (offset + 1)) none #[] <;> simp [Except.map]

/-- The span can be cut if its end can be reached and no group on top of it is left open. -/
theorem sequence_isOk_iff (wf : c.WellFormed) : (∃ items, sequence c first last = .ok items) ↔
    c.Known first ∧ c.Leads first last ∧ ∀ l, c.span first last = .ok l → ClosesWithin c l := by
  constructor
  · rintro ⟨items, ok⟩
    obtain ⟨l, span, pieces⟩ := (sequence_ok_iff wf).mp ok
    obtain ⟨known, -, path, head, final⟩ := wf.span_ok.mp span
    obtain ⟨tail, rfl⟩ := List.head?_eq_some_iff.mp head
    refine ⟨known, Chain.leads_iff_path.mpr ⟨tail, path, ?_⟩, fun m again => ?_⟩
    · rw [List.getLast?_eq_some_getLast (by simp), Option.some.injEq] at final
      exact final
    · obtain rfl := Except.ok.inj (span.symm.trans again)
      exact (exists_pieces_iff wf (wf.path_known path known)).mp ⟨items, pieces⟩
  · rintro ⟨known, leads, closes⟩
    obtain ⟨tail, path, final⟩ := Chain.leads_iff_path.mp leads
    have all := wf.path_known path known
    have span : c.span first last = .ok (first :: tail) := by
      refine wf.span_ok.mpr ⟨known, ?_, path, rfl, ?_⟩
      · exact all last (final ▸ List.getLast_mem _)
      · rw [List.getLast?_eq_some_getLast (by simp), final]
    obtain ⟨items, pieces⟩ := (exists_pieces_iff wf all).mpr (closes _ span)
    exact ⟨items, (sequence_ok_iff wf).mpr ⟨_, span, pieces⟩⟩

/-- The items of a span are a partition of its nodes and of its text, and those that are groups are
those whose first node opens one. There are such items if and only if the end of the span can be
reached from its start and every group that is opened on top of it is balanced and closed within it.
They are found in at most as many rounds as the span has nodes, and one to see its end. -/
theorem sequence_partitions (wf : c.WellFormed) (first last : NodeId) :
    (∀ items, sequence c first last = .ok items → ∃ l spans texts,
      c.span first last = .ok l ∧ l.Nodup ∧
      items.mapM (fun i => c.span i.first i.last) = .ok spans ∧ spans.flatten = l ∧
      (∀ i ∈ items, i.isGroup = true ↔ c.opens i.first = true) ∧
      items.mapM (render c) = .ok texts ∧ c.spanText first last = .ok texts.flatten) ∧
    ((∃ items, sequence c first last = .ok items) ↔ c.Known first ∧ c.Leads first last ∧
      ∀ l, c.span first last = .ok l → ClosesWithin c l) ∧
    ∀ l, c.span first last = .ok l → ∀ n > l.length,
      inRounds c last n l = some (sequence c first last) := by
  refine ⟨fun items ok => ?_, sequence_isOk_iff wf, fun l span n enough => ?_⟩
  · obtain ⟨l, span, pieces⟩ := (sequence_ok_iff wf).mp ok
    obtain ⟨spans, read, rfl⟩ := pieces.spans wf
    refine ⟨_, spans, spans.map c.textOfAll, span, wf.path_nodup (wf.span_ok.mp span).2.2.1,
      mapM_ok.mpr read, rfl, pieces.isGroup_iff, mapM_ok.mpr (map_render c items spans read), ?_⟩
    rw [Chain.spanText, span, ← textOfAll_flatten]
    rfl
  · rw [inRounds_eq c last enough, sequence, span]
    rfl

/-- A bracket that closes nothing and a group are two items. Without the end of the group there are
none. -/
theorem sequence_partitions_stray : ∃ c : Chain, c.WellFormed ∧
    c.order.map c.textOf = [[')'], ['('], [')']] ∧
    (∃ items spans, sequence c (.ofIndex 0) (.ofIndex 2) = .ok items ∧
      items.map isGroup = [false, true] ∧
      items.mapM (fun i => c.span i.first i.last) = .ok spans ∧ spans.flatten = c.order) ∧
    (∀ items, sequence c (.ofIndex 0) (.ofIndex 1) ≠ .ok items) ∧
    ¬ ∀ l, c.span (.ofIndex 0) (.ofIndex 1) = .ok l → ClosesWithin c l := by
  let start : Chain := { capacity := Limits.development.nodes }
  let c := start.afterAll (([[')'], ['('], [')']].map fun text =>
      .create (.classify .punctuation text)) ++
    ((List.range 2).map fun i => .insertAfter (.ofIndex i) (.ofIndex (i + 1))))
  have starts : start.IsStart .development := .inl rfl
  have wf : c.WellFormed := (starts.wellFormed (by decide)).afterAll (by decide)
  have cut : (sequence c (.ofIndex 0) (.ofIndex 2)).toOption.any
      (·.map isGroup == [false, true]) = true := by decide +kernel
  have whole : (c.span (.ofIndex 0) (.ofIndex 2)).toOption = some c.order := by decide +kernel
  have short : (sequence c (.ofIndex 0) (.ofIndex 1)).toOption.isNone = true := by decide +kernel
  have next : c.next? (.ofIndex 0) = some (.ofIndex 1) := by decide +kernel
  obtain ⟨items, found, kinds⟩ := (Option.any_eq_true ..).mp cut
  have ok := toOption_some.mp found
  obtain ⟨l, spans, -, span, -, read, rfl, -⟩ :=
    (sequence_partitions wf (.ofIndex 0) (.ofIndex 2)).1 items ok
  have failed : ∀ items, sequence c (.ofIndex 0) (.ofIndex 1) ≠ .ok items := by
    intro items ok
    rw [ok] at short
    cases short
  refine ⟨c, wf, by decide +kernel, ⟨items, spans, ok, beq_iff_eq.mp kinds, read, ?_⟩, failed,
    fun closes => ?_⟩
  · exact Except.ok.inj (span.symm.trans (toOption_some.mp whole))
  · obtain ⟨items, ok⟩ := (sequence_partitions wf (.ofIndex 0) (.ofIndex 1)).2.1.mpr
      ⟨Chain.known_of_next? next, .tail (.refl c _) next, closes⟩
    exact failed items ok

end Item

end Restyle
