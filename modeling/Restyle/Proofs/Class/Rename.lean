import Restyle.Proofs.Class.Runs

/-!
# Members under a renaming of nodes

What members a body declares depends on the tokens of its items and not on the nodes that hold
them, nor on what is inside its groups. So bodies whose items are the same up to a renaming have
the same members up to that renaming (`Renamed.members`).
-/

namespace Restyle

/-- The group under new names, without what is inside it. -/
def Group.rename (name : NodeId → NodeId) (g : Group) : Group := .mk (name g.opener) (name g.closer) []

def Item.rename (name : NodeId → NodeId) : Item → Item
  | atom id => atom (name id)
  | group g => group (g.rename name)

def Initializer.rename (name : NodeId → NodeId) (v : Initializer) : Initializer :=
  { v with first := name v.first, last := name v.last }

def Property.rename (name : NodeId → NodeId) (p : Property) : Property :=
  { p with
    start := name p.start
    variableId := name p.variableId
    value := p.value.map (·.rename name)
    terminator := name p.terminator }

def Method.rename (name : NodeId → NodeId) (m : Method) : Method :=
  { m with start := name m.start, body := m.body.map (·.rename name) }

def Member.rename (name : NodeId → NodeId) : Member → Member
  | property p => property (p.rename name)
  | method m => method (m.rename name)
  | other => other

/-- The item has the same brackets or the same token in `d` under its new name. -/
def Item.SameIn (c d : Chain) (name : NodeId → NodeId) (i : Item) : Prop :=
  d.token? (name i.first) = c.token? i.first ∧ d.token? (name i.last) = c.token? i.last

namespace Member
variable {c d : Chain} {name : NodeId → NodeId} {p q : Item → Bool} {l run : List Item} {i : Item}

theorem runs_rename (same : ∀ i ∈ l, p (i.rename name) = q i) :
    runs p (l.map (·.rename name)) = (runs q l).map (·.map (·.rename name)) := by
  induction h : l.length using Nat.strong_induction_on generalizing l with
  | _ n ih =>
    subst h
    rcases quiet_or_cut q l with quiet | ⟨first, x, l, rfl, quiet, ends⟩
    · have quiet' : ∀ i ∈ l.map (·.rename name), p i = false := by
        simp only [List.mem_map]
        rintro _ ⟨i, member, rfl⟩
        rw [same i member, quiet i member]
      rw [runs_of_quiet quiet, runs_of_quiet quiet', List.map_nil]
    · have quiet' : ∀ i ∈ first.map (·.rename name), p i = false := by
        simp only [List.mem_map]
        rintro _ ⟨i, member, rfl⟩
        rw [same i (by simp [member]), quiet i member]
      have ends' : p (x.rename name) = true := by rw [same x (by simp), ends]
      have rest := ih l.length (by simp; omega) (fun i member => same i (by simp [member])) rfl
      simp only [List.map_append, List.map_cons]
      rw [runs_cut quiet' ends', runs_cut quiet ends, rest]
      simp

section Items
variable (same : ∀ i ∈ run, i.SameIn c d name)

theorem isAtom_rename (same : i.SameIn c d name) (p : Token → Bool) :
    isAtom d p (i.rename name) = isAtom c p i := by
  cases i with
  | atom id => exact Chain.tokenIs_eq_of_token? same.1 p
  | group g => rfl

theorem isEnd_rename (same : i.SameIn c d name) : isEnd d (i.rename name) = isEnd c i := by
  cases i with
  | atom id => exact Chain.tokenIs_eq_of_token? same.1 (·.isPunctuation ';')
  | group g => exact Chain.tokenIs_eq_of_token? same.1 (·.isPunctuation '{')

theorem first_rename : (i.rename name).first = name i.first := by cases i <;> rfl

theorem last_rename : (i.rename name).last = name i.last := by cases i <;> rfl

theorem group?_rename : (i.rename name).group? = i.group?.map (·.rename name) := by cases i <;> rfl

include same

theorem any_rename (p : Token → Bool) :
    (run.map (·.rename name)).any (isAtom d p) = run.any (isAtom c p) := by
  rw [List.any_map, Bool.eq_iff_iff, List.any_eq_true, List.any_eq_true]
  simp only [Function.comp]
  constructor
  · rintro ⟨i, member, holds⟩
    exact ⟨i, member, isAtom_rename (same i member) p ▸ holds⟩
  · rintro ⟨i, member, holds⟩
    exact ⟨i, member, (isAtom_rename (same i member) p).symm ▸ holds⟩

theorem takeWhile_rename (p : Token → Bool) :
    (run.map (·.rename name)).takeWhile (fun i => !isAtom d p i) =
      (run.takeWhile fun i => !isAtom c p i).map (·.rename name) := by
  induction run with
  | nil => rfl
  | cons i run ih =>
    have here := isAtom_rename (same i List.mem_cons_self) p
    have rest := ih fun j member => same j (List.mem_cons_of_mem i member)
    simp only [List.map_cons, List.takeWhile_cons, here]
    split <;> simp [rest]

theorem dropWhile_rename (p : Token → Bool) :
    (run.map (·.rename name)).dropWhile (fun i => !isAtom d p i) =
      (run.dropWhile fun i => !isAtom c p i).map (·.rename name) := by
  induction run with
  | nil => rfl
  | cons i run ih =>
    have here := isAtom_rename (same i List.mem_cons_self) p
    have rest := ih fun j member => same j (List.mem_cons_of_mem i member)
    simp only [List.map_cons, List.dropWhile_cons, here]
    split <;> simp [rest]

theorem find?_rename (p : Token → Bool) :
    (run.map (·.rename name)).find? (isAtom d p) = (run.find? (isAtom c p)).map (·.rename name) := by
  induction run with
  | nil => rfl
  | cons i run ih =>
    have here := isAtom_rename (same i List.mem_cons_self) p
    have rest := ih fun j member => same j (List.mem_cons_of_mem i member)
    simp only [List.map_cons, List.find?_cons, here]
    split <;> simp [rest]

theorem braces_rename :
    ((run.map (·.rename name)).filterMap Item.group?).filter (isBraces d) =
      ((run.filterMap Item.group?).filter (isBraces c)).map (·.rename name) := by
  have groups : (run.map (·.rename name)).filterMap Item.group? =
      (run.filterMap Item.group?).map (·.rename name) := by
    rw [List.filterMap_map, List.map_filterMap]
    congr 1
    funext i
    exact group?_rename
  rw [groups, List.filter_map]
  congr 1
  refine List.filter_congr fun g member => ?_
  obtain ⟨i, inside, is⟩ := List.mem_filterMap.mp member
  cases i with
  | atom id => simp [Item.group?] at is
  | group g' =>
    obtain rfl := Option.some.inj is
    exact Chain.tokenIs_eq_of_token? (same _ inside).1 (·.isPunctuation '{')

theorem methodOf_rename (start : NodeId) : methodOf d (name start) (run.map (·.rename name)) =
    (methodOf c start run).rename name := by
  have after : ∀ i ∈ (run.dropWhile fun i => !isAtom c (·.isKeyword "function") i).tail, i ∈ run :=
    fun i member => (List.dropWhile_sublist _).subset (List.mem_of_mem_tail member)
  have named : ((((run.map (·.rename name)).dropWhile fun i =>
        !isAtom d (·.isKeyword "function") i).tail.find? (isAtom d isName)).map
          fun i => d.textOf i.first) =
      (((run.dropWhile fun i => !isAtom c (·.isKeyword "function") i).tail.find?
        (isAtom c isName)).map fun i => c.textOf i.first) := by
    rw [dropWhile_rename same, ← List.map_tail,
      find?_rename (fun i member => same i (after i member)), Option.map_map]
    cases found : (run.dropWhile fun i => !isAtom c (·.isKeyword "function") i).tail.find?
        (isAtom c isName) with
    | none => rfl
    | some i =>
      have inside := after i (List.mem_of_find?_eq_some found)
      simp [first_rename, Chain.textOf_eq_of_token? (same i inside).1]
  simp only [methodOf, Method.rename, braces_rename same, named, List.getLast?_map]

theorem valueOf_rename : valueOf d (run.map (·.rename name)) =
    (valueOf c run).map (·.rename name) := by
  cases run with
  | nil => rfl
  | cons i value =>
    cases i with
    | group g => rfl
    | atom sign =>
      have equals := Chain.tokenIs_eq_of_token? (same _ List.mem_cons_self).1 (·.isOperator "=")
      have shape : (Item.atom sign :: value).map (·.rename name) =
          Item.atom (name sign) :: value.map (·.rename name) := rfl
      rw [Item.first] at equals
      simp only [shape, valueOf]
      rw [equals, List.head?_map, List.getLast?_map, List.length_map]
      split
      · cases head : value.head? with
        | none => rfl
        | some first =>
          cases last : value.getLast? with
          | none => rfl
          | some final =>
            have inside : first ∈ value := List.mem_of_mem_head? head
            have null := Chain.tokenIs_eq_of_token? (same first (List.mem_cons_of_mem _ inside)).1
              fun t => t.isConstant && t.text.sameIgnoringCase "null".toList
            simp only [Option.map_some, first_rename, last_rename, null]
            rfl
      · rfl

theorem propertyOf?_rename {start : NodeId} {final : Item} (member : final ∈ run) :
    propertyOf? d (name start) (run.map (·.rename name)) (final.rename name) =
      (propertyOf? c start run final).map (·.rename name) := by
  simp only [propertyOf?, takeWhile_rename same, List.length_map, ← List.map_drop, any_rename same]
  cases behind : run.drop (run.takeWhile fun i => !isAtom c isVariable i).length with
  | nil => rfl
  | cons named rest =>
    have tail : ∀ i ∈ named :: rest, i ∈ run := fun i member =>
      (List.drop_sublist _ run).subset (behind ▸ member)
    have inRest : ∀ i ∈ rest.dropLast, i.SameIn c d name := fun i member =>
      same i (tail i (List.mem_cons_of_mem _ (List.mem_of_mem_dropLast member)))
    have inModifiers : ∀ i ∈ run.takeWhile (fun i => !isAtom c isVariable i), i.SameIn c d name :=
      fun i member => same i ((List.takeWhile_sublist _).subset member)
    have text := Chain.textOf_eq_of_token? (same named (tail named List.mem_cons_self)).1
    have ends := Chain.tokenIs_eq_of_token? (same final member).2 (·.isPunctuation ';')
    simp only [List.map_cons, ← List.map_dropLast, first_rename, last_rename, text, ends,
      valueOf_rename inRest, any_rename inModifiers]
    split
    · rfl
    · split <;> rfl

theorem ofItems_rename : ofItems d (run.map (·.rename name)) = (ofItems c run).rename name := by
  simp only [ofItems, List.head?_map, List.getLast?_map, any_rename same]
  cases head : run.head? with
  | none => rfl
  | some start =>
    cases last : run.getLast? with
    | none => rfl
    | some final =>
      simp only [Option.map_some, first_rename, methodOf_rename same,
        propertyOf?_rename same (List.mem_of_getLast? last)]
      split
      · rfl
      · cases propertyOf? c start.first run final <;> rfl

end Items

end Member

namespace ClassDecl
variable {c d : Chain} {name : NodeId → NodeId} {f g : Forest}

/-- The items of `f` under new names are those of `g`, and they have the same tokens in `d`. Fillers
need only be fillers. -/
structure Renamed (c d : Chain) (name : NodeId → NodeId) (f g : Forest) : Prop where
  items : g.items.map (·.rename id) = f.items.map (·.rename name)
  tokens : ∀ i ∈ f.items, i.SameIn c d name ∨
    (Member.isFiller c i = true ∧ Member.isFiller d (i.rename name) = true)

theorem isFiller_rename {i : Item} (same : i.SameIn c d name) :
    Member.isFiller d (i.rename name) = Member.isFiller c i := by
  cases i with
  | atom id => exact congrArg (!·) (Chain.tokenIs_eq_of_token? same.1 Token.isSignificant)
  | group g => exact Chain.tokenIs_eq_of_token? same.1 Token.opensAttribute

def membersIn (c : Chain) (items : List Item) : List Member :=
  (Member.runs (Member.isEnd c) (items.filter fun i => !Member.isFiller c i)).map (Member.ofItems c)

theorem membersIn_rename {l : List Item} (same : ∀ i ∈ l, i.SameIn c d name ∨
    (Member.isFiller c i = true ∧ Member.isFiller d (i.rename name) = true)) :
    membersIn d (l.map (·.rename name)) = (membersIn c l).map (·.rename name) := by
  have kept : (l.map (·.rename name)).filter (fun i => !Member.isFiller d i) =
      (l.filter fun i => !Member.isFiller c i).map (·.rename name) := by
    rw [List.filter_map]
    congr 1
    refine List.filter_congr fun i member => ?_
    rcases same i member with same | ⟨left, right⟩
    · simp [isFiller_rename same]
    · simp [left, right]
  have same : ∀ i ∈ l.filter (fun i => !Member.isFiller c i), i.SameIn c d name := by
    intro i member
    obtain ⟨inside, significant⟩ := List.mem_filter.mp member
    rcases same i inside with same | ⟨filler, -⟩
    · exact same
    · simp [filler] at significant
  rw [membersIn, kept, Member.runs_rename fun i member => Member.isEnd_rename (same i member),
    membersIn, List.map_map, List.map_map]
  refine List.map_congr_left fun run member => ?_
  obtain ⟨done, rest, split⟩ := List.append_of_mem member
  obtain ⟨before, q, x, after, whole, rfl, -⟩ := Member.runs_eq_append split
  exact Member.ofItems_rename fun i inside => same i (by
    rw [whole]
    simp only [List.mem_append] at inside ⊢
    tauto)

/-- Bodies with the same items up to a renaming have the same members up to it. -/
theorem Renamed.members (renamed : Renamed c d name f g) :
    (membersOf d g).map (·.rename id) = (membersOf c f).map (·.rename name) := by
  have right := membersIn_rename renamed.tokens
  have left : membersIn d (g.items.map (·.rename id)) = (membersIn d g.items).map (·.rename id) :=
    membersIn_rename fun i member => .inl ⟨rfl, rfl⟩
  rw [← renamed.items, left] at right
  exact right

end ClassDecl

end Restyle
