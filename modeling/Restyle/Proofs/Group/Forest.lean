import Mathlib.Algebra.BigOperators.Group.List.Basic
import Mathlib.Algebra.Ring.Int.Defs
import Restyle.Item
import Restyle.Proofs.Chain.Table

/-!
# Forests

A forest is a sequence of items with all that is inside them. Its brackets fit if each closes what
it should, and then its nodes alone tell what forest it is (`eq_append_of_ids`). So a piece of it
whose own brackets fit can be found in it (`exists_hole`) and be replaced by another.
-/

namespace Restyle

namespace Chain

def opens (c : Chain) (id : NodeId) : Bool := c.tokenIs (·.closer?.isSome) id

def closes (c : Chain) (id : NodeId) : Bool := c.tokenIs Token.closesGroup id

/-- How much deeper the brackets are after some nodes than before them. -/
def level (c : Chain) (l : List NodeId) : Int :=
  (l.map fun id => if c.opens id then 1 else if c.closes id then -1 else 0).sum

end Chain

theorem Token.closesGroup_of_closer? {t u : Token} {bracket : Char} (opens : t.closer? = some bracket)
    (closes : u.isPunctuation bracket = true) : u.closesGroup = true ∧ u.closer? = none := by
  have shape : bracket = ')' ∨ bracket = ']' ∨ bracket = '}' := by
    simp only [closer?] at opens
    split at opens
    · split at opens <;> cases opens <;> simp
    · simp at opens
  simp only [isPunctuation, Bool.and_eq_true, beq_iff_eq] at closes
  rcases shape with rfl | rfl | rfl <;> simp [closesGroup, closer?, isPunctuation, closes.1, closes.2]

theorem Token.kind_of_closesGroup {t : Token} (closes : t.closesGroup = true) :
    t.kind = .punctuation := by
  simp only [closesGroup, isPunctuation, Bool.or_eq_true, Bool.and_eq_true, beq_iff_eq] at closes
  rcases closes with (⟨kind, -⟩ | ⟨kind, -⟩) | ⟨kind, -⟩ <;> exact kind

inductive Forest where
  | nil
  | atom (id : NodeId) (rest : Forest)
  | group (opener : NodeId) (inside : Forest) (closer : NodeId) (rest : Forest)
  deriving DecidableEq, Repr

namespace Forest
variable {c d : Chain} {f g m : Forest} {o e id : NodeId} {before after : List NodeId}

def ids : Forest → List NodeId
  | nil => []
  | atom id rest => id :: rest.ids
  | group opener inside closer rest => opener :: (inside.ids ++ closer :: rest.ids)

def groups : Forest → List Group
  | nil => []
  | atom _ rest => rest.groups
  | group opener inside closer rest => .mk opener closer inside.groups :: rest.groups

def items : Forest → List Item
  | nil => []
  | atom id rest => .atom id :: rest.items
  | group opener inside closer rest => .group (.mk opener closer inside.groups) :: rest.items

def append : Forest → Forest → Forest
  | nil, g => g
  | atom id rest, g => atom id (rest.append g)
  | group opener inside closer rest, g => group opener inside closer (rest.append g)

instance : Append Forest := ⟨append⟩

/-- Every bracket of the forest closes what it should, and no other node is a bracket. -/
def Fits (c : Chain) : Forest → Prop
  | nil => True
  | atom id rest => (c.Known id ∧ c.opens id = false ∧ c.closes id = false) ∧ rest.Fits c
  | group opener inside closer rest =>
    (∃ bracket, (c.token? opener).bind Token.closer? = some bracket ∧
      c.tokenIs (·.isPunctuation bracket) closer = true) ∧ inside.Fits c ∧ rest.Fits c

/-! ### Putting forests together -/

@[simp] theorem nil_append : nil ++ g = g := rfl

@[simp] theorem atom_append {rest : Forest} : atom id rest ++ g = atom id (rest ++ g) := rfl

@[simp] theorem group_append {inside rest : Forest} :
    group o inside e rest ++ g = group o inside e (rest ++ g) := rfl

@[simp] theorem append_nil : f ++ nil = f := by
  induction f with
  | nil => rfl
  | atom id rest ih => rw [atom_append, ih]
  | group o inside e rest _ ih => rw [group_append, ih]

@[simp] theorem append_assoc : f ++ g ++ m = f ++ (g ++ m) := by
  induction f with
  | nil => rfl
  | atom id rest ih => simp only [atom_append, ih]
  | group o inside e rest _ ih => simp only [group_append, ih]

@[simp] theorem ids_append : (f ++ g).ids = f.ids ++ g.ids := by
  induction f with
  | nil => rfl
  | atom id rest ih => simp [ids, ih]
  | group o inside e rest _ ih => simp [ids, ih]

@[simp] theorem items_append : (f ++ g).items = f.items ++ g.items := by
  induction f with
  | nil => rfl
  | atom id rest ih => simp [items, ih]
  | group o inside e rest _ ih => simp [items, ih]

@[simp] theorem fits_append : (f ++ g).Fits c ↔ f.Fits c ∧ g.Fits c := by
  induction f with
  | nil => simp [Fits]
  | atom id rest ih => simp [Fits, ih, and_assoc]
  | group o inside e rest _ ih => simp [Fits, ih, and_assoc]

/-- A group of two forests put together is one of the first or of the second. -/
theorem append_eq_group {h k inside : Forest} (same : f ++ g = h ++ group o inside e k) :
    (∃ m, f = h ++ group o inside e m ∧ k = m ++ g) ∨
      ∃ m, h = f ++ m ∧ g = m ++ group o inside e k := by
  induction f generalizing h with
  | nil => exact .inr ⟨h, rfl, same⟩
  | atom id rest ih =>
    cases h with
    | nil => simp at same
    | group o' inside' e' h => simp at same
    | atom id' h =>
      obtain ⟨rfl, tail⟩ := atom.inj same
      rcases ih tail with ⟨m, rfl, rfl⟩ | ⟨m, rfl, rfl⟩
      · exact .inl ⟨m, rfl, rfl⟩
      · exact .inr ⟨m, rfl, rfl⟩
  | group o' inside' e' rest _ ih =>
    cases h with
    | nil =>
      obtain ⟨rfl, rfl, rfl, rfl⟩ := group.inj same
      exact .inl ⟨rest, rfl, rfl⟩
    | atom id h => simp at same
    | group o'' inside'' e'' h =>
      obtain ⟨rfl, rfl, rfl, tail⟩ := group.inj same
      rcases ih tail with ⟨m, rfl, rfl⟩ | ⟨m, rfl, rfl⟩
      · exact .inl ⟨m, rfl, rfl⟩
      · exact .inr ⟨m, rfl, rfl⟩

theorem eq_nil_of_ids (empty : f.ids = []) : f = nil := by
  cases f <;> simp [ids] at empty ⊢

theorem item_ids {i : Item} (member : i ∈ f.items) : i.first ∈ f.ids ∧ i.last ∈ f.ids := by
  induction f with
  | nil => simp [items] at member
  | atom id rest ih =>
    rcases List.mem_cons.mp member with rfl | member
    · exact ⟨List.mem_cons_self, List.mem_cons_self⟩
    · exact ⟨List.mem_cons_of_mem _ (ih member).1, List.mem_cons_of_mem _ (ih member).2⟩
  | group o inside e rest _ ih =>
    rcases List.mem_cons.mp member with rfl | member
    · simp [ids, Item.first, Item.last, Group.opener, Group.closer]
    · simp [ids, ih member]

/-! ### Levels -/

theorem opens_of_bracket {bracket : Char}
    (opener : (c.token? o).bind Token.closer? = some bracket) : c.opens o = true := by
  obtain ⟨t, token, closer⟩ := Option.bind_eq_some_iff.mp opener
  simp [Chain.opens, Chain.tokenIs_of_token? token, closer]

theorem closes_of_bracket {bracket : Char} (opener : (c.token? o).bind Token.closer? = some bracket)
    (closer : c.tokenIs (·.isPunctuation bracket) e = true) :
    c.closes e = true ∧ c.opens e = false := by
  obtain ⟨t, -, opens⟩ := Option.bind_eq_some_iff.mp opener
  obtain ⟨u, token, closes⟩ := Chain.tokenIs_iff.mp closer
  obtain ⟨closing, notOpening⟩ := Token.closesGroup_of_closer? opens closes
  simp [Chain.closes, Chain.opens, Chain.tokenIs_of_token? token, closing, notOpening]

@[simp] theorem level_nil : c.level [] = 0 := rfl

@[simp] theorem level_append {l m : List NodeId} : c.level (l ++ m) = c.level l + c.level m := by
  simp [Chain.level]

theorem level_cons {l : List NodeId} : c.level (id :: l) = c.level [id] + c.level l :=
  level_append (l := [id])

theorem level_of_opens (opens : c.opens id = true) : c.level [id] = 1 := by
  simp [Chain.level, opens]

theorem level_of_closes (closes : c.closes id = true) (plain : c.opens id = false) :
    c.level [id] = -1 := by simp [Chain.level, closes, plain]

theorem level_of_plain (opens : c.opens id = false) (closes : c.closes id = false) :
    c.level [id] = 0 := by simp [Chain.level, opens, closes]

theorem Fits.level_ids (fits : f.Fits c) : c.level f.ids = 0 := by
  induction f with
  | nil => rfl
  | atom id rest ih =>
    rw [ids, level_cons, level_of_plain fits.1.2.1 fits.1.2.2, ih fits.2, Int.add_zero]
  | group o inside e rest ih ih' =>
    obtain ⟨⟨bracket, opener, closer⟩, fitsInside, fitsRest⟩ := fits
    obtain ⟨closes, plain⟩ := closes_of_bracket opener closer
    have behind : c.level (e :: rest.ids) = -1 := by
      rw [level_cons, level_of_closes closes plain, ih' fitsRest]
      rfl
    rw [ids, level_cons, level_append, level_of_opens (opens_of_bracket opener), ih fitsInside, behind]
    rfl

/-- Within a forest the level never falls below that at its start. -/
theorem Fits.level_nonneg (fits : f.Fits c) (split : f.ids = before ++ after) :
    0 ≤ c.level before := by
  induction f generalizing before after with
  | nil =>
    obtain ⟨rfl, -⟩ := List.append_eq_nil_iff.mp split.symm
    simp
  | atom id rest ih =>
    cases before with
    | nil => simp
    | cons x before =>
      obtain ⟨rfl, tail⟩ := List.cons.inj split
      rw [level_cons, level_of_plain fits.1.2.1 fits.1.2.2]
      have := ih fits.2 tail
      omega
  | group o inside e rest ih ih' =>
    obtain ⟨⟨bracket, opener, closer⟩, fitsInside, fitsRest⟩ := fits
    cases before with
    | nil => simp
    | cons x before =>
      obtain ⟨rfl, tail⟩ := List.cons.inj split
      rw [level_cons, level_of_opens (opens_of_bracket opener)]
      rcases List.append_eq_append_iff.mp tail with ⟨within, rfl, behind⟩ | ⟨within, same, -⟩
      · -- The split falls right before the closing bracket or behind it.
        obtain ⟨closes, plain⟩ := closes_of_bracket opener closer
        rw [level_append, fitsInside.level_ids]
        cases within with
        | nil => simp
        | cons y within =>
          obtain ⟨rfl, tail'⟩ := List.cons.inj behind
          rw [level_cons, level_of_closes closes plain]
          have := ih' fitsRest tail'
          omega
      · have := ih fitsInside same
        omega

/-- A bracket that closes a group around a forest is the first one that the forest leaves over. -/
theorem Fits.ids_eq_of_closes {l m : List NodeId} {e' : NodeId} (fits : f.Fits c) (fits' : g.Fits c)
    (closes : c.level [e] = -1) (closes' : c.level [e'] = -1)
    (same : f.ids ++ e :: l = g.ids ++ e' :: m) : f.ids = g.ids ∧ e = e' ∧ l = m := by
  -- If one forest went on past the closing bracket of the other, its level would fall below zero.
  have apart : ∀ {h k : Forest} {x : NodeId} {l' : List NodeId}, h.Fits c → k.Fits c →
      c.level [x] = -1 → h.ids ≠ k.ids ++ x :: l' := by
    intro h k x l' fitsLong fitsShort closing long
    have split : h.ids = (k.ids ++ [x]) ++ l' := by simpa using long
    have low := fitsLong.level_nonneg split
    rw [level_append, fitsShort.level_ids, closing] at low
    omega
  rcases List.append_eq_append_iff.mp same with ⟨within, long, behind⟩ | ⟨within, long, behind⟩
  · cases within with
    | nil =>
      obtain ⟨rfl, rfl⟩ := List.cons.inj behind
      exact ⟨by simpa using long.symm, rfl, rfl⟩
    | cons x within =>
      obtain ⟨rfl, -⟩ := List.cons.inj behind
      exact (apart fits' fits closes long).elim
  · cases within with
    | nil =>
      obtain ⟨rfl, rfl⟩ := List.cons.inj behind
      exact ⟨by simpa using long, rfl, rfl⟩
    | cons x within =>
      obtain ⟨rfl, -⟩ := List.cons.inj behind
      exact (apart fits fits' closes' long).elim

/-! ### The forest of some nodes -/

/-- A forest that starts with the nodes of another starts with that forest. -/
theorem Fits.eq_append_of_ids {l : List NodeId} (fits : f.Fits c) (fits' : g.Fits c)
    (starts : f.ids = g.ids ++ l) : ∃ h, f = g ++ h := by
  induction g generalizing f l with
  | nil => exact ⟨f, rfl⟩
  | atom id rest ih =>
    cases f with
    | nil => simp [ids] at starts
    | atom id' rest' =>
      obtain ⟨rfl, tail⟩ := List.cons.inj starts
      obtain ⟨h, rfl⟩ := ih fits.2 fits'.2 tail
      exact ⟨h, rfl⟩
    | group o inside e rest' =>
      obtain ⟨rfl, -⟩ := List.cons.inj starts
      obtain ⟨⟨bracket, opener, -⟩, -⟩ := fits
      have plain := fits'.1.2.1
      simp [opens_of_bracket opener] at plain
  | group o inside e rest ih ih' =>
    obtain ⟨⟨bracket', opener', closer'⟩, fitsInside', fitsRest'⟩ := fits'
    obtain ⟨closes', plain'⟩ := closes_of_bracket opener' closer'
    cases f with
    | nil => simp [ids] at starts
    | atom id' rest' =>
      obtain ⟨rfl, -⟩ := List.cons.inj starts
      have plain := fits.1.2.1
      simp [opens_of_bracket opener'] at plain
    | group o' inside' e' rest' =>
      obtain ⟨⟨bracket, opener, closer⟩, fitsInside, fitsRest⟩ := fits
      obtain ⟨closes, plain⟩ := closes_of_bracket opener closer
      simp only [ids, List.cons_append, List.append_assoc] at starts
      obtain ⟨rfl, tail⟩ := List.cons.inj starts
      obtain ⟨sameInside, rfl, tail'⟩ := fitsInside.ids_eq_of_closes fitsInside'
        (level_of_closes closes plain) (level_of_closes closes' plain') tail
      obtain ⟨h, rfl⟩ := ih fitsInside fitsInside' (l := []) (by simpa using sameInside)
      obtain rfl : h = nil := eq_nil_of_ids (by simpa using sameInside)
      obtain ⟨h, rfl⟩ := ih' fitsRest fitsRest' tail'
      exact ⟨h, by simp⟩

theorem Fits.eq_of_ids (fits : f.Fits c) (fits' : g.Fits c) (same : f.ids = g.ids) : f = g := by
  obtain ⟨h, rfl⟩ := fits.eq_append_of_ids fits' (l := []) (by simpa using same)
  obtain rfl : h = nil := eq_nil_of_ids (by simpa using same)
  simp

/-! ### A place in a forest -/

inductive Hole where
  | top (before after : Forest)
  | inside (before : Forest) (opener : NodeId) (hole : Hole) (closer : NodeId) (after : Forest)

namespace Hole

def fill : Hole → Forest → Forest
  | top before after, m => before ++ m ++ after
  | inside before opener hole closer after, m =>
    before ++ group opener (hole.fill m) closer after

def idsBefore : Hole → List NodeId
  | top before _ => before.ids
  | inside before opener hole _ _ => before.ids ++ opener :: hole.idsBefore

def idsAfter : Hole → List NodeId
  | top _ after => after.ids
  | inside _ _ hole closer after => hole.idsAfter ++ closer :: after.ids

def shift (first : Forest) : Hole → Hole
  | top before rest => top (first ++ before) rest
  | inside before opener hole closer rest => inside (first ++ before) opener hole closer rest

theorem fill_shift (hole : Hole) : (hole.shift f).fill m = f ++ hole.fill m := by
  cases hole <;> simp [shift, fill]

theorem idsBefore_shift (hole : Hole) : (hole.shift f).idsBefore = f.ids ++ hole.idsBefore := by
  cases hole <;> simp [shift, idsBefore]

theorem idsAfter_shift (hole : Hole) : (hole.shift f).idsAfter = hole.idsAfter := by
  cases hole <;> simp [shift, idsAfter]

theorem ids_fill (hole : Hole) : (hole.fill m).ids = hole.idsBefore ++ m.ids ++ hole.idsAfter := by
  induction hole with
  | top before after => simp [fill, idsBefore, idsAfter]
  | inside before opener hole closer after ih =>
    simp [fill, idsBefore, idsAfter, ids, ih]

/-- What fits into a place can be replaced by all else that fits. -/
theorem fits_fill {hole : Hole} (fits : (hole.fill m).Fits c) (fits' : g.Fits c) :
    (hole.fill g).Fits c := by
  induction hole with
  | top before after => simp_all [fill]
  | inside before opener hole closer after ih =>
    simp only [fill, fits_append, Fits] at fits ⊢
    exact ⟨fits.1, fits.2.1, ih fits.2.2.1, fits.2.2.2⟩

end Hole

/-- A run of nodes whose brackets fit ends before the bracket that closes what it starts in. -/
theorem Fits.ends_before {left more : List NodeId} (fits : f.Fits c) (fits' : m.Fits c)
    (closes : c.closes e = true) (plain : c.opens e = false) (same : f.ids = before ++ left)
    (behind : m.ids ++ after = left ++ e :: more) :
    ∃ rest, left = m.ids ++ rest ∧ after = rest ++ e :: more := by
  rcases List.append_eq_append_iff.mp behind with ⟨rest, rfl, rfl⟩ | ⟨beyond, long, ends⟩
  · exact ⟨rest, rfl, rfl⟩
  · cases beyond with
    | nil => exact ⟨[], by simpa using long.symm, by simpa using ends.symm⟩
    | cons y beyond =>
      -- The closing bracket would be one that `m` leaves over.
      obtain ⟨rfl, -⟩ := List.cons.inj ends
      have split : m.ids = (left ++ [e]) ++ beyond := by simpa using long
      have low := fits'.level_nonneg split
      have zero := fits.level_ids
      have high := fits.level_nonneg same
      rw [same, level_append] at zero
      rw [level_append, level_of_closes closes plain] at low
      omega

theorem Fits.exists_hole_of_prefix (fits : f.Fits c) (fits' : m.Fits c)
    (split : f.ids = m.ids ++ after) :
    ∃ hole : Hole, f = hole.fill m ∧ hole.idsBefore = [] ∧ hole.idsAfter = after := by
  obtain ⟨h, rfl⟩ := fits.eq_append_of_ids fits' split
  refine ⟨.top nil h, by simp [Hole.fill], rfl, ?_⟩
  simpa [Hole.idsAfter] using split

/-- A run of nodes whose brackets fit has a place in the forest. -/
theorem Fits.exists_hole (fits : f.Fits c) (fits' : m.Fits c)
    (split : f.ids = before ++ m.ids ++ after) :
    ∃ hole : Hole, f = hole.fill m ∧ hole.idsBefore = before ∧ hole.idsAfter = after := by
  induction f generalizing before after with
  | nil =>
    simp only [ids, List.append_assoc, List.nil_eq, List.append_eq_nil_iff] at split
    obtain ⟨rfl, empty, rfl⟩ := split
    obtain rfl := eq_nil_of_ids empty
    exact ⟨.top nil nil, rfl, rfl, rfl⟩
  | atom id rest ih =>
    cases before with
    | nil => exact fits.exists_hole_of_prefix fits' (by simpa using split)
    | cons x before =>
      simp only [ids, List.cons_append] at split
      obtain ⟨rfl, tail⟩ := List.cons.inj split
      obtain ⟨hole, rfl, rfl, rfl⟩ := ih fits.2 tail
      exact ⟨hole.shift (atom id nil), by simp [Hole.fill_shift], by simp [Hole.idsBefore_shift, ids],
        Hole.idsAfter_shift hole⟩
  | group o inside e rest ih ih' =>
    cases before with
    | nil => exact fits.exists_hole_of_prefix fits' (by simpa using split)
    | cons x before =>
      obtain ⟨⟨bracket, opener, closer⟩, fitsInside, fitsRest⟩ := fits
      obtain ⟨closes, plain⟩ := closes_of_bracket opener closer
      simp only [ids, List.cons_append, List.append_assoc] at split
      obtain ⟨rfl, tail⟩ := List.cons.inj split
      have short : ∀ left, inside.ids = before ++ left → m.ids ++ after = left ++ e :: rest.ids →
          ∃ hole : Hole, group o inside e rest = hole.fill m ∧ hole.idsBefore = o :: before ∧
            hole.idsAfter = after := by
        intro left same behind
        obtain ⟨more, rfl, rfl⟩ := fitsInside.ends_before fits' closes plain same behind
        obtain ⟨hole, rfl, rfl, rfl⟩ := ih fitsInside (by simpa using same)
        exact ⟨.inside nil o hole e rest, rfl, rfl, rfl⟩
      rcases List.append_eq_append_iff.mp tail with ⟨within, rfl, behind⟩ | ⟨within, same, behind⟩
      · cases within with
        | nil => exact short [] (by simp) (by simpa using behind.symm)
        | cons y within =>
          obtain ⟨rfl, tail'⟩ := List.cons.inj behind
          obtain ⟨hole, rfl, rfl, rfl⟩ := ih' fitsRest (by simpa using tail')
          exact ⟨hole.shift (group o inside e nil), by simp [Hole.fill_shift],
            by simp [Hole.idsBefore_shift, ids], Hole.idsAfter_shift hole⟩
      · exact short within same behind

theorem Fits.eq_append_of_suffix {l : List NodeId} (fits : f.Fits c) (fits' : g.Fits c)
    (ends : f.ids = l ++ g.ids) : ∃ h, f = h ++ g ∧ h.ids = l := by
  have split : f.ids = l ++ g.ids ++ [] := by simpa using ends
  obtain ⟨hole, rfl, rfl, nothing⟩ := fits.exists_hole fits' split
  cases hole with
  | top before after =>
    obtain rfl := eq_nil_of_ids nothing
    exact ⟨before, by simp [Hole.fill], rfl⟩
  | inside before o hole e after => simp [Hole.idsAfter] at nothing

/-! ### Nodes without brackets -/

def atoms : List NodeId → Forest
  | [] => nil
  | id :: l => atom id (atoms l)

theorem ids_atoms (l : List NodeId) : (atoms l).ids = l := by
  induction l with
  | nil => rfl
  | cons id l ih => rw [atoms, ids, ih]

theorem items_atoms (l : List NodeId) : (atoms l).items = l.map .atom := by
  induction l with
  | nil => rfl
  | cons id l ih => rw [atoms, items, ih, List.map_cons]

theorem plain_of_kind {x : NodeId} {t : Token} (token : c.token? x = some t)
    (kind : t.kind ≠ .punctuation) : c.Known x ∧ c.opens x = false ∧ c.closes x = false := by
  refine ⟨Chain.known_iff_token?.mpr ⟨t, token⟩, ?_, ?_⟩
  · simp [Chain.opens, Chain.tokenIs_of_token? token, Token.closer?, kind]
  · simp [Chain.closes, Chain.tokenIs_of_token? token, Token.closesGroup, Token.isPunctuation, kind]

theorem fits_atoms {l : List NodeId}
    (plain : ∀ id ∈ l, c.Known id ∧ c.opens id = false ∧ c.closes id = false) : (atoms l).Fits c := by
  induction l with
  | nil => trivial
  | cons id l ih =>
    exact ⟨plain id List.mem_cons_self, ih fun x member => plain x (List.mem_cons_of_mem _ member)⟩

end Forest

end Restyle
