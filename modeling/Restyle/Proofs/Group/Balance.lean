import Mathlib.Logic.Relation
import Restyle.Proofs.Chain.History
import Restyle.Proofs.Group.Parse

/-!
# Groups that are closed and groups that are not

Behind an opening bracket the nodes make up a forest up to the bracket that closes it, or reading
comes to a place where it cannot go on, inside some group that is still open
(`exists_close_or_pending`). So `parse` decides which of both it is: `parse_decides_balance`.
-/

namespace Restyle
open Trail (IsPath)
open Outcome

def ChainError.IsOpenGroup (e : ChainError) : Prop :=
  ∃ node opener expected, e = .openGroup node opener expected

/-- The tokens that open a group. -/
theorem Token.closer?_isSome_iff {t : Token} : t.closer?.isSome = true ↔
    t.kind = .punctuation ∧ t.text ∈ [['('], ['['], ['{'], ['#', '[']] := by
  unfold closer?
  by_cases kind : t.kind = .punctuation
  · simp only [kind, beq_self_eq_true, if_true, true_and]
    split <;> simp_all
  · simp [kind]

theorem Token.closer?_of_closesGroup {t : Token} (closes : t.closesGroup = true) : t.closer? = none := by
  simp only [closesGroup, isPunctuation, Bool.or_eq_true, Bool.and_eq_true, beq_iff_eq] at closes
  rcases closes with (⟨-, text⟩ | ⟨-, text⟩) | ⟨-, text⟩ <;> simp [closer?, text]

namespace Group
variable {c : Chain} {o e i cur : NodeId} {l : List NodeId} {f inside : Forest} {g sub : Group}
  {bracket : Char}

/-! ### Groups inside a group -/

theorem exists_of_mem_groups (member : g ∈ f.groups) : ∃ before inside after,
    f = before ++ .group g.opener inside g.closer after ∧ g = .mk g.opener g.closer inside.groups := by
  induction f with
  | nil => cases member
  | atom id rest ih =>
    obtain ⟨before, inside, after, split, same⟩ := ih member
    refine ⟨.atom id before, inside, after, ?_, same⟩
    rw [Forest.atom_append, ← split]
  | group o inner e rest _ ih =>
    rcases List.mem_cons.mp member with rfl | member
    · exact ⟨.nil, inner, rest, rfl, rfl⟩
    · obtain ⟨before, inside, after, split, same⟩ := ih member
      refine ⟨.group o inner e before, inside, after, ?_, same⟩
      rw [Forest.group_append, ← split]

theorem Opens.child (opens : Opens c o inside e) (member : g ∈ inside.groups) :
    ∃ inner, Opens c g.opener inner g.closer ∧ g = .mk g.opener g.closer inner.groups := by
  obtain ⟨before, inner, after, rfl, same⟩ := exists_of_mem_groups member
  have fits := opens.fits.2.1
  simp only [Forest.fits_append, Forest.Fits] at fits
  refine ⟨inner, ⟨⟨fits.2.1, fits.2.2.1, trivial⟩, ?_⟩, same⟩
  have path : IsPath c.next? ((o :: before.ids) ++
      ((g.opener :: (inner.ids ++ [g.closer])) ++ (after.ids ++ [e]))) := by
    simpa [Forest.ids] using opens.path
  exact path.right.left

/-- The group itself, a group in it, a group in that one and so on. -/
def Within : Group → Group → Prop := Relation.ReflTransGen fun g h => h ∈ g.children

/-- Every group within a group is what its own opener reads as. -/
theorem parse_of_within (wf : c.WellFormed) (parsed : parse c g.opener = .ok (some g))
    (within : Within g sub) : parse c sub.opener = .ok (some sub) := by
  induction within with
  | refl => exact parsed
  | tail _ member ih =>
    obtain ⟨inside, e, opens, same⟩ := (parse_ok_iff wf).mp ih
    rw [same] at member
    obtain ⟨inner, opens', same'⟩ := opens.child member
    exact (parse_ok_iff wf).mpr ⟨inner, _, opens', same'⟩

/-! ### Groups that are left open -/

/-- Behind the opener `o` and the nodes `l`, the innermost group that is still open is that of `i`. -/
inductive Pending (c : Chain) : NodeId → List NodeId → NodeId → Prop
  | here {o : NodeId} {f : Forest} (opens : c.opens o = true) (fits : f.Fits c) : Pending c o f.ids o
  | inside {o o' i : NodeId} {f : Forest} {l : List NodeId} (opens : c.opens o = true)
    (fits : f.Fits c) (inner : Pending c o' l i) : Pending c o (f.ids ++ o' :: l) i

theorem Pending.opens (pending : Pending c o l i) : c.opens o = true := by
  cases pending <;> assumption

theorem Pending.opens_innermost (pending : Pending c o l i) : c.opens i = true := by
  induction pending with
  | here opens _ => exact opens
  | inside _ _ _ ih => exact ih

theorem Pending.cons_forest (pending : Pending c o l i) (fits : f.Fits c) :
    Pending c o (f.ids ++ l) i := by
  cases pending with
  | here opens fits' =>
    rw [← Forest.ids_append]
    exact .here opens (Forest.fits_append.mpr ⟨fits, fits'⟩)
  | inside opens fits' inner =>
    rw [← List.append_assoc, ← Forest.ids_append]
    exact .inside opens (Forest.fits_append.mpr ⟨fits, fits'⟩) inner

/-- The nodes `rest` do not go on inside the group of `i`: there are none, or the first of them is a
closing bracket and the wrong one. -/
def Blocks (c : Chain) (i : NodeId) (rest : List NodeId) : Prop :=
  ∀ e ∈ rest.head?, c.closes e = true ∧
    ∀ bracket, (c.token? i).bind Token.closer? = some bracket →
      c.tokenIs (·.isPunctuation bracket) e = false

theorem exists_bracket (opens : c.opens o = true) :
    ∃ bracket, (c.token? o).bind Token.closer? = some bracket := by
  obtain ⟨t, token, some⟩ := Chain.tokenIs_iff.mp opens
  obtain ⟨bracket, closer⟩ := Option.isSome_iff_exists.mp some
  exact ⟨bracket, by rw [token]; exact closer⟩

/-- What comes behind an opener closes it or leaves some group open. -/
theorem exists_close_or_pending (known : ∀ id ∈ l, c.Known id)
    (opener : (c.token? o).bind Token.closer? = some bracket) :
    (∃ (inside : Forest) (e : NodeId) (rest : List NodeId), l = inside.ids ++ e :: rest ∧
        inside.Fits c ∧ c.tokenIs (·.isPunctuation bracket) e = true) ∨
      ∃ front rest i, l = front ++ rest ∧ Pending c o front i ∧ Blocks c i rest := by
  have opens := Forest.opens_of_bracket opener
  induction h : l.length using Nat.strong_induction_on generalizing l o bracket with
  | _ n ih =>
    subst h
    cases l with
    | nil => exact .inr ⟨[], [], o, rfl, .here (f := .nil) opens trivial, by simp [Blocks]⟩
    | cons id l =>
      have knownTail : ∀ x ∈ l, c.Known x := fun x member => known x (List.mem_cons_of_mem _ member)
      by_cases inner : c.opens id = true
      · -- The group of `id` comes first: if it is closed, the rest decides.
        obtain ⟨bracket', opener'⟩ := exists_bracket inner
        rcases ih l.length (by simp) knownTail opener' inner rfl with
          ⟨f, e, rest, rfl, fits, closer⟩ | ⟨front, rest, i, rfl, pending, blocks⟩
        · have group : (Forest.group id f e .nil).Fits c :=
            ⟨⟨bracket', opener', closer⟩, fits, trivial⟩
          have shorter : rest.length < (id :: (f.ids ++ e :: rest)).length := by
            simp only [List.length_cons, List.length_append]
            omega
          rcases ih rest.length shorter (fun x member => knownTail x (by simp [member])) opener opens rfl
            with ⟨f', e', rest', rfl, fits', closer'⟩ | ⟨front, rest', i, rfl, pending, blocks⟩
          · exact .inl ⟨.group id f e f', e', rest', by simp [Forest.ids],
              ⟨⟨bracket', opener', closer⟩, fits, fits'⟩, closer'⟩
          · exact .inr ⟨_, rest', i, by simp [Forest.ids], pending.cons_forest group, blocks⟩
        · exact .inr ⟨id :: front, rest, i, rfl, .inside (f := .nil) opens trivial pending, blocks⟩
      · rw [Bool.not_eq_true] at inner
        by_cases closes : c.closes id = true
        · by_cases fitting : c.tokenIs (·.isPunctuation bracket) id = true
          · exact .inl ⟨.nil, id, l, rfl, trivial, fitting⟩
          · refine .inr ⟨[], id :: l, o, rfl, .here (f := .nil) opens trivial, ?_⟩
            rintro e ⟨rfl⟩
            refine ⟨closes, fun bracket' opener' => ?_⟩
            obtain rfl := Option.some.inj (opener.symm.trans opener')
            simpa using fitting
        · rw [Bool.not_eq_true] at closes
          have plain : (Forest.atom id .nil).Fits c :=
            ⟨⟨known id List.mem_cons_self, inner, closes⟩, trivial⟩
          rcases ih l.length (by simp) knownTail opener opens rfl with
            ⟨f, e, rest, rfl, fits, closer⟩ | ⟨front, rest, i, rfl, pending, blocks⟩
          · exact .inl ⟨.atom id f, e, rest, rfl, ⟨plain.1, fits⟩, closer⟩
          · exact .inr ⟨_, rest, i, rfl, pending.cons_forest plain, blocks⟩

/-- Reading comes to the innermost group that is open. -/
theorem read_pending (pending : Pending c o l i) (path : IsPath c.next? (cur :: l)) (frame : Frame)
    (outer : List Frame) (opener : frame.opener = o)
    (expected : (c.token? o).bind Token.closer? = some frame.expected) :
    ∃ frame' outer', frame'.opener = i ∧ (c.token? i).bind Token.closer? = some frame'.expected ∧
      ∀ fuel, read c (l.length + fuel) cur frame outer =
        read c fuel (l.getLastD cur) frame' outer' := by
  induction pending generalizing cur frame outer with
  | @here o f opens fits =>
    exact ⟨frame.after f, outer, opener, expected, fun fuel => read_forest fits path⟩
  | @inside o o' i f l opens fits inner ih =>
    obtain ⟨bracket', opener'⟩ := exists_bracket inner.opens
    have split : IsPath c.next? ((cur :: f.ids) ++ o' :: l) := path
    obtain ⟨frame', outer', same, expected', read'⟩ := ih split.right
      { opener := o', expected := bracket' } (frame.after f :: outer) rfl opener'
    refine ⟨frame', outer', same, expected', fun fuel => ?_⟩
    have length : (f.ids ++ o' :: l).length + fuel = f.ids.length + ((l.length + fuel) + 1) := by
      simp only [List.length_append, List.length_cons]
      omega
    rw [length, read_forest fits split.left, read_open path.step_getLastD opener', read',
      Trail.getLastD_append_cons]

/-- Reading from `o` stops behind the nodes `l`, inside the group of `i` that `bracket` would close: at
the end of the links or before a closing bracket of another kind. -/
structure Stops (c : Chain) (o : NodeId) (l : List NodeId) (i : NodeId) (bracket : Char) : Prop where
  path : IsPath c.next? (o :: l)
  pending : Pending c o l i
  expected : (c.token? i).bind Token.closer? = some bracket
  blocked : c.next? (l.getLastD o) = none ∨ ∃ e, c.next? (l.getLastD o) = some e ∧
    c.closes e = true ∧ c.tokenIs (·.isPunctuation bracket) e = false

theorem Stops.parse_error (wf : c.WellFormed) (stops : Stops c o l i bracket) :
    parse c o = .error (.openGroup i (c.textOf i) bracket) := by
  obtain ⟨first, opener⟩ := exists_bracket stops.pending.opens
  obtain ⟨t, token, closer⟩ := Option.bind_eq_some_iff.mp opener
  have known : c.Known o := Chain.known_iff_token?.mpr ⟨t, token⟩
  have bound := wf.path_length_le stops.path List.mem_cons_self known
  obtain ⟨fuel, size⟩ : ∃ k, c.size = l.length + (k + 1) :=
    ⟨c.size - (l.length + 1), by simp only [List.length_cons] at bound; omega⟩
  obtain ⟨frame', outer', same, expected, read'⟩ :=
    read_pending stops.pending stops.path { opener := o, expected := first } [] rfl opener
  obtain rfl : frame'.expected = bracket := Option.some.inj (expected.symm.trans stops.expected)
  have failed : read c (fuel + 1) (l.getLastD o) frame' outer' = .error (frame'.unbalanced c) := by
    rcases stops.blocked with final | ⟨e, next, closes, wrong⟩
    · simp only [read, final]
    · obtain ⟨u, token', closing⟩ := Chain.tokenIs_iff.mp closes
      have plain := Token.closer?_of_closesGroup closing
      rw [Chain.tokenIs_of_token? token'] at wrong
      simp only [read, next, Chain.token_ok.mpr token', plain, closing, wrong]
      rfl
  rw [← same]
  simp only [parse, Chain.token_ok.mpr token, bind, Except.bind, closer, size, read', failed]
  rfl

theorem parse_error_iff (wf : c.WellFormed) (known : c.Known o) {err : ChainError} :
    parse c o = .error err ↔
      ∃ l i bracket, Stops c o l i bracket ∧ err = .openGroup i (c.textOf i) bracket := by
  constructor
  · intro failed
    have opens : c.opens o = true := by
      by_contra plain
      rw [parse_none_iff.mpr ⟨known, by simpa using plain⟩] at failed
      cases failed
    obtain ⟨bracket, opener⟩ := exists_bracket opens
    obtain ⟨l, path, last⟩ := wf.exists_after o
    have all : ∀ id ∈ l, c.Known id := fun id member =>
      wf.path_known path known id (List.mem_cons_of_mem _ member)
    rcases exists_close_or_pending all opener with
      ⟨inside, e, rest, rfl, fits, closer⟩ | ⟨front, rest, i, rfl, pending, blocks⟩
    · have closed : IsPath c.next? ((o :: (inside.ids ++ [e])) ++ rest) := by simpa using path
      have opens : Opens c o inside e := ⟨⟨⟨bracket, opener, closer⟩, fits, trivial⟩, closed.left⟩
      rw [(parse_ok_iff wf).mpr ⟨inside, e, opens, rfl⟩] at failed
      cases failed
    · obtain ⟨bracket', expected⟩ := exists_bracket pending.opens_innermost
      have stops : Stops c o front i bracket' := by
        refine ⟨path.left (l := o :: front), pending, expected, ?_⟩
        cases rest with
        | nil => exact .inl (last _ (by simp [List.getLast?_cons]))
        | cons e rest =>
          obtain ⟨closes, wrong⟩ := blocks e rfl
          exact .inr ⟨e, path.step_getLastD, closes, wrong bracket' expected⟩
      rw [stops.parse_error wf] at failed
      exact ⟨front, i, bracket', stops, (Except.error.inj failed).symm⟩
  · rintro ⟨l, i, bracket, stops, rfl⟩
    exact stops.parse_error wf

theorem parse_isOpenGroup (wf : c.WellFormed) (known : c.Known o) {err : ChainError}
    (failed : parse c o = .error err) : err.IsOpenGroup := by
  obtain ⟨-, i, bracket, -, rfl⟩ := (parse_error_iff wf known).mp failed
  exact ⟨i, c.textOf i, bracket, rfl⟩

/-- Reading a node decides whether the brackets from there on fit. A node that is no opening bracket
reads as nothing. One that is reads as the group between it and its closing bracket, with the groups
directly inside, if there is such a forest of nodes behind it, and all groups within read so
too. Otherwise the error names the innermost group that is open where reading stops. -/
theorem parse_decides_balance (wf : c.WellFormed) {t : Token} (token : c.token? o = some t) :
    (parse c o = .ok none ↔ ¬ (t.kind = .punctuation ∧
      t.text ∈ [['('], ['['], ['{'], ['#', '[']])) ∧
    (∀ g, parse c o = .ok (some g) ↔ ∃ inside e, Opens c o inside e ∧ g = .mk o e inside.groups) ∧
    (∀ g sub, parse c o = .ok (some g) → Within g sub → parse c sub.opener = .ok (some sub)) ∧
    ∀ err, parse c o = .error err ↔
      ∃ l i bracket, Stops c o l i bracket ∧ err = .openGroup i (c.textOf i) bracket := by
  have known : c.Known o := Chain.known_iff_token?.mpr ⟨t, token⟩
  refine ⟨?_, fun g => parse_ok_iff wf, ?_, fun err => parse_error_iff wf known⟩
  · rw [parse_none_iff, ← Token.closer?_isSome_iff, Chain.opens, Chain.tokenIs_of_token? token]
    simp [known]
  · intro g sub parsed within
    obtain ⟨inside, e, -, same⟩ := (parse_ok_iff wf).mp parsed
    have own : parse c g.opener = .ok (some g) := by
      rw [same] at parsed ⊢
      exact parsed
    exact parse_of_within wf own within

/-- An attribute with a pair of parentheses in it, and a brace before a parenthesis that closes
nothing. -/
theorem parse_decides_balance_attribute : ∃ c : Chain, c.WellFormed ∧
    c.order.map c.textOf = [['#', '['], ['('], [')'], [']'], ['{'], [')']] ∧
    parse c (.ofIndex 0) =
      .ok (some (.mk (.ofIndex 0) (.ofIndex 3) [.mk (.ofIndex 1) (.ofIndex 2) []])) ∧
    parse c (.ofIndex 4) = .error (.openGroup (.ofIndex 4) ['{'] '}') := by
  let start : Chain := { capacity := Limits.development.nodes }
  let c := start.afterAll (([['#', '['], ['('], [')'], [']'], ['{'], [')']].map fun text =>
      .create (.classify .punctuation text)) ++
    ([0, 1, 2, 3, 4].map fun i => .insertAfter (.ofIndex i) (.ofIndex (i + 1))))
  have starts : start.IsStart .development := .inl rfl
  have wf : c.WellFormed := (starts.wellFormed (by decide)).afterAll (by decide)
  have opens : Opens c (.ofIndex 0) (.group (.ofIndex 1) .nil (.ofIndex 2) .nil) (.ofIndex 3) := by
    refine ⟨⟨⟨']', ?_, ?_⟩, ⟨⟨')', ?_, ?_⟩, trivial, trivial⟩, trivial⟩, ?_⟩
    · decide +kernel
    · decide +kernel
    · decide +kernel
    · decide +kernel
    · refine Trail.isPath_cons_cons.mpr ⟨?_, Trail.isPath_cons_cons.mpr ⟨?_,
        Trail.isPath_cons_cons.mpr ⟨?_, Trail.isPath_singleton _⟩⟩⟩ <;> decide +kernel
  have stops : Stops c (.ofIndex 4) [] (.ofIndex 4) '}' := by
    refine ⟨Trail.isPath_singleton _, .here (f := .nil) ?_ trivial, ?_,
      .inr ⟨.ofIndex 5, ?_, ?_, ?_⟩⟩ <;> decide +kernel
  have first : c.token? (.ofIndex 0) = some (.classify .punctuation ['#', '[']) := by decide +kernel
  have second : c.token? (.ofIndex 4) = some (.classify .punctuation ['{']) := by decide +kernel
  refine ⟨c, wf, by decide +kernel, ?_, ?_⟩
  · exact ((parse_decides_balance wf first).2.1 _).mpr ⟨_, _, opens, rfl⟩
  · have text : c.textOf (.ofIndex 4) = ['{'] := by decide +kernel
    exact ((parse_decides_balance wf second).2.2.2 _).mpr ⟨[], _, _, stops, by rw [text]⟩

end Group

end Restyle
