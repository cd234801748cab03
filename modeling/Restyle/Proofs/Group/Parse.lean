import Restyle.Proofs.Chain.Edits
import Restyle.Proofs.Group.Forest

/-!
# Reading groups

Reading a group finds the forest between its brackets and nothing else (`parse_ok_iff`). A run of
nodes that make up a forest is read as the items of that forest (`sequence_of_forest`).
-/

namespace Restyle
open Trail (IsPath)
open Outcome

namespace Group
variable {c : Chain} {cur id o e : NodeId} {frame : Frame} {outer : List Frame} {fuel : Nat}
  {f : Forest} {g : Group}

/-! ### One node -/

theorem read_atom (next : c.next? cur = some id) (known : c.Known id) (opens : c.opens id = false)
    (closes : c.closes id = false) :
    read c (fuel + 1) cur frame outer = read c fuel id frame outer := by
  obtain ⟨t, token⟩ := Chain.known_iff_token?.mp known
  simp only [Chain.opens, Chain.closes, Chain.tokenIs_of_token? token, Option.isSome_eq_false_iff,
    Option.isNone_iff_eq_none] at opens closes
  simp [read, next, Chain.token_ok.mpr token, opens, closes]

theorem read_open {bracket : Char} (next : c.next? cur = some o)
    (opener : (c.token? o).bind Token.closer? = some bracket) :
    read c (fuel + 1) cur frame outer =
      read c fuel o { opener := o, expected := bracket } (frame :: outer) := by
  obtain ⟨t, token, opens⟩ := Option.bind_eq_some_iff.mp opener
  simp [read, next, Chain.token_ok.mpr token, opens]

theorem read_close {parent : Frame} (next : c.next? cur = some e)
    (closer : c.tokenIs (·.isPunctuation frame.expected) e = true) (closes : c.closes e = true)
    (opens : c.opens e = false) :
    read c (fuel + 1) cur frame (parent :: outer) =
      read c fuel e (parent.add (frame.close e)) outer := by
  obtain ⟨t, token, mark⟩ := Chain.tokenIs_iff.mp closer
  simp only [Chain.opens, Chain.closes, Chain.tokenIs_of_token? token, Option.isSome_eq_false_iff,
    Option.isNone_iff_eq_none] at opens closes
  simp [read, next, Chain.token_ok.mpr token, opens, closes, mark]

theorem read_close_last (next : c.next? cur = some e)
    (closer : c.tokenIs (·.isPunctuation frame.expected) e = true) (closes : c.closes e = true)
    (opens : c.opens e = false) : read c (fuel + 1) cur frame [] = .ok (frame.close e) := by
  obtain ⟨t, token, mark⟩ := Chain.tokenIs_iff.mp closer
  simp only [Chain.opens, Chain.closes, Chain.tokenIs_of_token? token, Option.isSome_eq_false_iff,
    Option.isNone_iff_eq_none] at opens closes
  simp [read, next, Chain.token_ok.mpr token, opens, closes, mark]

/-! ### A whole forest -/

def Frame.after (frame : Frame) (f : Forest) : Frame :=
  { frame with children := f.groups.reverse ++ frame.children }

theorem Frame.close_after {bracket : Char} :
    (({ opener := o, expected := bracket } : Frame).after f).close e = .mk o e f.groups := by
  simp [Frame.after, Frame.close]

theorem Frame.after_group {inside : Forest} :
    frame.after (.group o inside e f) = (frame.add (.mk o e inside.groups)).after f := by
  simp [Frame.after, Frame.add, Forest.groups]

theorem read_forest (fits : f.Fits c) (path : IsPath c.next? (cur :: f.ids)) :
    read c (f.ids.length + fuel) cur frame outer =
      read c fuel (f.ids.getLastD cur) (frame.after f) outer := by
  induction f generalizing cur fuel frame outer with
  | nil => simp [Forest.ids, Frame.after, Forest.groups]
  | atom id rest ih =>
    obtain ⟨next, tail⟩ := Trail.isPath_cons_cons.mp path
    have length : (Forest.atom id rest).ids.length + fuel = (rest.ids.length + fuel) + 1 := by
      simp only [Forest.ids, List.length_cons]
      omega
    rw [length, read_atom next fits.1.1 fits.1.2.1 fits.1.2.2, ih fits.2 tail,
      Forest.ids, List.getLastD_cons]
    rfl
  | group o inside e rest ih ih' =>
    obtain ⟨⟨bracket, opener, closer⟩, fitsInside, fitsRest⟩ := fits
    obtain ⟨closes, plain⟩ := Forest.closes_of_bracket opener closer
    obtain ⟨next, tail⟩ := Trail.isPath_cons_cons.mp path
    have last := tail.step_getLastD
    rw [← List.cons_append] at tail
    have length : (Forest.group o inside e rest).ids.length + fuel =
        (inside.ids.length + ((rest.ids.length + fuel) + 1)) + 1 := by
      simp only [Forest.ids, List.length_cons, List.length_append]
      omega
    rw [length, read_open next opener, ih fitsInside tail.left,
      read_close last closer closes plain, ih' fitsRest tail.right]
    rw [Forest.ids, List.getLastD_cons, Trail.getLastD_append_cons, Frame.close_after,
      Frame.after_group]

def Resumes (c : Chain) (fuel : Nat) (e : NodeId) (closed g : Group) : List Frame → Prop
  | [] => g = closed
  | parent :: outer => ∃ less < fuel, read c less e (parent.add closed) outer = .ok g

theorem Resumes.mono {closed : Group} {more : Nat} (resumes : Resumes c fuel e closed g outer)
    (le : fuel ≤ more) : Resumes c more e closed g outer := by
  cases outer with
  | nil => exact resumes
  | cons parent outer =>
    obtain ⟨less, bound, ok⟩ := resumes
    exact ⟨less, by omega, ok⟩

theorem read_cases (ok : read c (fuel + 1) cur frame outer = .ok g) :
    ∃ id, c.next? cur = some id ∧
      ((∃ bracket, (c.token? id).bind Token.closer? = some bracket ∧
          read c fuel id { opener := id, expected := bracket } (frame :: outer) = .ok g) ∨
        (c.Known id ∧ c.opens id = false ∧ c.closes id = false ∧
          read c fuel id frame outer = .ok g) ∨
        (c.tokenIs (·.isPunctuation frame.expected) id = true ∧
          Resumes c (fuel + 1) id (frame.close id) g outer)) := by
  rw [read] at ok
  split at ok
  · simp at ok
  · rename_i id next
    refine ⟨id, next, ?_⟩
    split at ok
    · simp at ok
    · rename_i t found
      have token := Chain.token_ok.mp found
      split at ok
      · rename_i bracket opener
        exact .inl ⟨bracket, by simp [token, opener], ok⟩
      · rename_i plain
        split at ok
        · rename_i open'
          refine .inr (.inl ⟨Chain.known_iff_token?.mpr ⟨t, token⟩, ?_, ?_, ok⟩)
          · simp [Chain.opens, Chain.tokenIs_of_token? token, plain]
          · simpa [Chain.closes, Chain.tokenIs_of_token? token] using open'
        · split at ok
          · simp at ok
          · rename_i mark
            refine .inr (.inr ⟨by simpa [Chain.tokenIs_of_token? token] using mark, ?_⟩)
            split at ok
            · exact ⟨fuel, by omega, ok⟩
            · exact (Except.ok.inj ok).symm

theorem exists_forest_of_read (ok : read c fuel cur frame outer = .ok g) :
    ∃ f e, f.Fits c ∧ IsPath c.next? (cur :: (f.ids ++ [e])) ∧
      c.tokenIs (·.isPunctuation frame.expected) e = true ∧
      Resumes c fuel e ((frame.after f).close e) g outer := by
  induction fuel using Nat.strong_induction_on generalizing cur frame outer g with
  | _ fuel ih =>
    cases fuel with
    | zero => simp [read] at ok
    | succ fuel =>
      obtain ⟨id, next, cases⟩ := read_cases ok
      rcases cases with ⟨bracket, opener, ok⟩ | ⟨known, opens, closes, ok⟩ | ⟨closer, resumes⟩
      · -- A group inside: first its own forest, then what comes after it.
        obtain ⟨inside, e, fitsInside, path, closer, less, bound, rest⟩ := ih fuel (by omega) ok
        obtain ⟨f, e', fits, path', closer', resumes⟩ := ih less (by omega) rest
        refine ⟨.group id inside e f, e', ⟨⟨bracket, opener, closer⟩, fitsInside, fits⟩, ?_, closer',
          ?_⟩
        · have joined : IsPath c.next? ((id :: inside.ids) ++ e :: (f.ids ++ [e'])) :=
            Trail.isPath_append_cons.mpr ⟨by simpa using path, path'⟩
          exact Trail.isPath_cons_cons.mpr ⟨next, by simpa [Forest.ids] using joined⟩
        · rw [Frame.after_group]
          rw [Frame.close_after] at resumes
          exact resumes.mono (by omega)
      · obtain ⟨f, e, fits, path, closer, resumes⟩ := ih fuel (by omega) ok
        refine ⟨.atom id f, e, ⟨⟨known, opens, closes⟩, fits⟩, ?_, closer, ?_⟩
        · exact Trail.isPath_cons_cons.mpr ⟨next, path⟩
        · exact resumes.mono (by omega)
      · exact ⟨.nil, id, trivial, by simpa [Forest.ids] using next, closer, resumes⟩

/-! ### The group of a node -/

structure Opens (c : Chain) (o : NodeId) (inside : Forest) (e : NodeId) : Prop where
  fits : (Forest.group o inside e .nil).Fits c
  path : IsPath c.next? (o :: (inside.ids ++ [e]))

/-- The first group of a forest, and what comes after it. -/
theorem Opens.of_forest {inside rest : Forest} (fits : (Forest.group o inside e rest).Fits c)
    (path : IsPath c.next? (Forest.group o inside e rest).ids) :
    Opens c o inside e ∧ IsPath c.next? rest.ids := by
  have split : IsPath c.next? ((o :: (inside.ids ++ [e])) ++ rest.ids) := by
    simpa [Forest.ids] using path
  exact ⟨⟨⟨fits.1, fits.2.1, trivial⟩, split.left⟩, split.right⟩

theorem Opens.known (wf : c.WellFormed) (opens : Opens c o f e) :
    ∀ x ∈ o :: (f.ids ++ [e]), c.Known x := by
  obtain ⟨⟨bracket, opener, -⟩, -⟩ := opens.fits
  obtain ⟨t, token, -⟩ := Option.bind_eq_some_iff.mp opener
  exact wf.path_known opens.path (Chain.known_iff_token?.mpr ⟨t, token⟩)

theorem Opens.span_eq (wf : c.WellFormed) (opens : Opens c o f e) :
    c.span o e = .ok (o :: (f.ids ++ [e])) := by
  refine wf.span_ok.mpr ⟨opens.known wf o (by simp), opens.known wf e (by simp), opens.path, rfl, ?_⟩
  rw [← List.cons_append, List.getLast?_concat]

theorem Opens.ne (wf : c.WellFormed) (opens : Opens c o f e) : e ≠ o := by
  have nodup := wf.path_nodup opens.path
  simp only [List.nodup_cons, List.mem_append, List.mem_singleton, not_or] at nodup
  exact Ne.symm nodup.1.2

theorem Opens.not_mem (wf : c.WellFormed) (opens : Opens c o f e) : e ∉ f.ids := by
  have nodup := wf.path_nodup opens.path
  rw [← List.cons_append, List.nodup_append] at nodup
  exact fun inner => nodup.2.2 e (List.mem_cons_of_mem _ inner) e (List.mem_singleton_self e) rfl

theorem parse_ok_iff (wf : c.WellFormed) :
    parse c o = .ok (some g) ↔ ∃ inside e, Opens c o inside e ∧ g = .mk o e inside.groups := by
  simp only [parse, bind_ok, Chain.token_ok]
  constructor
  · rintro ⟨t, token, ok⟩
    split at ok
    · simp [pure_ok] at ok
    · rename_i bracket opener
      obtain ⟨group, read, same⟩ := bind_ok.mp ok
      obtain rfl : group = g := by simpa [pure_ok] using same
      obtain ⟨inside, e, fits, path, closer, resumes⟩ := exists_forest_of_read read
      refine ⟨inside, e, ⟨⟨⟨bracket, by simp [token, opener], closer⟩, fits, trivial⟩, path⟩, ?_⟩
      rw [Frame.close_after] at resumes
      exact resumes
  · rintro ⟨inside, e, ⟨⟨⟨bracket, opener, closer⟩, fits, -⟩, path⟩, rfl⟩
    obtain ⟨t, token, opens⟩ := Option.bind_eq_some_iff.mp opener
    obtain ⟨closes, plain⟩ := Forest.closes_of_bracket opener closer
    refine ⟨t, token, ?_⟩
    have known : c.Known o := Chain.known_iff_token?.mpr ⟨t, token⟩
    have bound := wf.path_length_le path List.mem_cons_self known
    simp only [List.length_cons, List.length_append, List.length_nil] at bound
    obtain ⟨fuel, size⟩ : ∃ k, c.size = inside.ids.length + (k + 1) :=
      ⟨c.size - (inside.ids.length + 1), by omega⟩
    have last := path.step_getLastD
    rw [← List.cons_append] at path
    have done : read c c.size o { opener := o, expected := bracket } [] =
        .ok (.mk o e inside.groups) := by
      rw [size, read_forest fits path.left, read_close_last last closer closes plain,
        Frame.close_after]
    simp [opens, done, bind, Except.bind, pure, Except.pure]

theorem parse_none_iff : parse c o = .ok none ↔ c.Known o ∧ c.opens o = false := by
  simp only [parse, bind_ok, Chain.token_ok]
  constructor
  · rintro ⟨t, token, ok⟩
    split at ok
    · rename_i plain
      refine ⟨Chain.known_iff_token?.mpr ⟨t, token⟩, ?_⟩
      simp [Chain.opens, Chain.tokenIs_of_token? token, plain]
    · obtain ⟨group, -, same⟩ := bind_ok.mp ok
      simp [pure_ok] at same
  · rintro ⟨known, plain⟩
    obtain ⟨t, token⟩ := Chain.known_iff_token?.mp known
    have none : t.closer? = none := by
      simpa [Chain.opens, Chain.tokenIs_of_token? token] using plain
    exact ⟨t, token, by simp [none, pure_ok]⟩

end Group

namespace Item
variable {c : Chain} {id o e finish first last : NodeId} {f : Forest} {items : Array Item}
  {rest : List NodeId}

/-! ### Items -/

theorem startingAt_atom (known : c.Known id) (opens : c.opens id = false) :
    startingAt c id = .ok (.atom id) := by
  simp [startingAt, Group.parse_none_iff.mpr ⟨known, opens⟩, bind, Except.bind, pure, Except.pure]

theorem startingAt_group (wf : c.WellFormed) {inside : Forest} (opens : Group.Opens c o inside e) :
    startingAt c o = .ok (.group (.mk o e inside.groups)) := by
  simp [startingAt, (Group.parse_ok_iff wf).mpr ⟨inside, e, opens, rfl⟩, bind, Except.bind, pure,
    Except.pure]

theorem split_atom (known : c.Known id) (opens : c.opens id = false) :
    split c finish (id :: rest) none items = split c finish rest none (items.push (.atom id)) := by
  simp [split, startingAt_atom known opens, Item.last]

theorem split_open (wf : c.WellFormed) {inside : Forest} (opens : Group.Opens c o inside e)
    (different : e ≠ o) :
    split c finish (o :: rest) none items =
      split c finish rest (some e) (items.push (.group (.mk o e inside.groups))) := by
  simp [split, startingAt_group wf opens, Item.last, Group.closer, different]

theorem split_skip {l : List NodeId} (outside : e ∉ l) :
    split c finish (l ++ e :: rest) (some e) items = split c finish rest none items := by
  induction l with
  | nil => simp [split]
  | cons x l ih =>
    simp only [List.mem_cons, not_or] at outside
    simp [split, Ne.symm outside.1, ih outside.2]

theorem split_forest (wf : c.WellFormed) (fits : f.Fits c) (path : IsPath c.next? f.ids) :
    split c finish (f.ids ++ rest) none items =
      split c finish rest none (items ++ f.items.toArray) := by
  induction f generalizing items with
  | nil => simp [Forest.ids, Forest.items]
  | atom id tail ih =>
    rw [Forest.ids, List.cons_append, split_atom fits.1.1 fits.1.2.1, ih fits.2 path.of_cons]
    simp [Forest.items]
  | group o inside e tail _ ih =>
    obtain ⟨opens, pathTail⟩ := Group.Opens.of_forest fits path
    rw [Forest.ids, List.cons_append, List.append_assoc, List.cons_append,
      split_open wf opens (opens.ne wf), split_skip (opens.not_mem wf), ih fits.2.2 pathTail]
    simp [Forest.items]

/-- A run of nodes that make up a forest is read as its items. -/
theorem sequence_of_forest (wf : c.WellFormed) (fits : f.Fits c) (path : IsPath c.next? f.ids)
    (known : c.Known first) (starts : f.ids.head? = some first)
    (ends : f.ids.getLast? = some last) : sequence c first last = .ok f.items := by
  have lastIn : last ∈ f.ids := List.mem_of_getLast? ends
  have firstIn : first ∈ f.ids := List.mem_of_mem_head? starts
  have span : c.span first last = .ok f.ids :=
    wf.span_ok.mpr ⟨known, wf.path_known_of_mem path firstIn known last lastIn, path, starts, ends⟩
  have items : split c last (f.ids ++ []) none #[] = split c last [] none (#[] ++ f.items.toArray) :=
    split_forest wf fits path
  simp only [List.append_nil] at items
  simp [sequence, span, items, split, bind, Except.bind, pure, Except.pure]

end Item

end Restyle
