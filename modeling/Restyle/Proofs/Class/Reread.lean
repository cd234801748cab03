import Restyle.Proofs.Class.Swap

/-!
# Headers after an edit

An edit is guarded if no walk over a header can cross the place of it (`Guarded`). Then the headers
that are read after the edit were there before, but for those that end in what was put in.
-/

namespace Restyle.ClassDecl
variable {c d : Chain} {left right before header rest : List NodeId} {old new : Forest}
  {k x b v t e : NodeId}

/-- From the word `class` at `k` on, nothing ends a header before `x`. -/
structure Walks (c : Chain) (before : List NodeId) (k : NodeId) (header : List NodeId) (x : NodeId)
    (rest : List NodeId) : Prop where
  order : c.order = before ++ k :: (header ++ x :: rest)
  keyword : c.tokenIs (·.isKeyword "class") k = true
  quiet : ∀ y ∈ header, c.tokenIs endsHeader y = false

theorem HeaderAt.walks (at' : HeaderAt c before k header b rest) : Walks c before k header b rest :=
  ⟨at'.order, at'.keyword, at'.quiet⟩

/-- Where a walk comes to is in the header. -/
theorem Walks.mem_header (wf : c.WellFormed) (walks : Walks c before k header x rest)
    (seen : c.isWhitespace x = false) : x ∈ (ClassDecl.header c k).toList := by
  obtain ⟨known, run⟩ := wf.run_of_order walks.order
  have plain := endsHeader_of_keyword walks.keyword
  cases first : (header ++ x :: rest).find? (c.tokenIs endsHeader) with
  | none =>
    have quiet : ∀ y ∈ header ++ x :: rest, c.tokenIs endsHeader y = false := by
      simpa using List.find?_eq_none.mp first
    rw [header_of_quiet wf known plain quiet run]
    exact List.mem_cons_of_mem _ (Chain.mem_visible.mpr ⟨by simp, seen⟩)
  | some b =>
    obtain ⟨stop, h, r, split, quiet⟩ := List.find?_eq_some_iff_append.mp first
    have quiet : ∀ y ∈ h, c.tokenIs endsHeader y = false := by simpa using quiet
    rw [split] at run
    rw [header_of_split wf known plain quiet run stop]
    have inside : x ∈ h ∨ x = b := by
      rcases List.append_eq_append_iff.mp split with ⟨w, rfl, beyond⟩ | ⟨w, rfl, beyond⟩
      · cases w with
        | nil => exact .inr (List.cons.inj beyond).1
        | cons y w => exact .inl (by simp [(List.cons.inj beyond).1])
      · cases w with
        | nil => exact .inr (List.cons.inj beyond).1.symm
        | cons y w =>
          have loud := walks.quiet b (by simp [(List.cons.inj beyond).1])
          simp [stop] at loud
    rcases inside with inside | rfl
    · simp [Chain.mem_visible.mpr ⟨inside, seen⟩]
    · simp

/-- A swap whose place no walk crosses, and that does not change what comes before a keyword. -/
structure Guarded (c d : Chain) (left : List NodeId) (old new : Forest) (right : List NodeId) : Prop
    extends Swap c d left old new right where
  walks : ∀ before k header x rest, Walks d before k header x rest →
    d.tokenIs (·.isPunctuation ';') x = false →
    (∃ z, left = before ++ k :: (header ++ x :: z)) ∨
    (∃ z, right = z ++ k :: (header ++ x :: rest)) ∨ x ∈ new.ids
  declared : ∀ z k tail, right = z ++ k :: tail → d.tokenIs (·.isKeyword "class") k = true →
    declaredAfter d (left ++ (new.ids ++ z)) = declaredAfter c (left ++ (old.ids ++ z))

theorem declaredAfter_congr (same : ∀ id ∈ before, d.token? id = c.token? id) :
    declaredAfter d before = declaredAfter c before := by
  have seen : d.visible before = c.visible before := by
    refine List.filter_congr fun id member => ?_
    rw [Chain.isWhitespace, Chain.isWhitespace, Chain.tokenIs_eq_of_token? (same id member)]
  rw [declaredAfter, declaredAfter, seen]
  cases last : (c.visible before).getLast? with
  | none => rfl
  | some r =>
    have inside := (Chain.mem_visible.mp (List.mem_of_getLast? last)).1
    simp only [Chain.tokenIs_eq_of_token? (same r inside)]

/-- The visible nodes right before the keyword decide. -/
theorem declaredAfter_append {l : List NodeId} (seen : c.visible l ≠ []) :
    declaredAfter c (before ++ l) = declaredAfter c l := by
  obtain ⟨init, last, same⟩ := List.eq_nil_or_concat (c.visible l) |>.resolve_left seen
  simp [declaredAfter, same]

namespace Guarded
variable (guarded : Guarded c d left old new right)
include guarded

/-- A walk after the edit was there before it, or ends in what was put in. -/
theorem walk (walks : Walks d before k header x rest)
    (plain : d.tokenIs (·.isPunctuation ';') x = false) : x ∈ new.ids ∨
    ∃ before' rest', Walks c before' k header x rest' ∧
      (declaredAfter d before = true → declaredAfter c before' = true) := by
  rcases guarded.walks _ _ _ _ _ walks plain with ⟨z, same⟩ | ⟨z, same⟩ | inside
  · have keep : ∀ id ∈ before ++ k :: (header ++ [x]), d.token? id = c.token? id := by
      intro id member
      refine guarded.same id ?_
      simp only [same, List.mem_append, List.mem_cons] at member ⊢
      tauto
    refine .inr ⟨before, z ++ (old.ids ++ right), ⟨by simp [guarded.order, same], ?_, ?_⟩, ?_⟩
    · rw [← Chain.tokenIs_eq_of_token? (keep k (by simp))]
      exact walks.keyword
    · intro y member
      rw [← Chain.tokenIs_eq_of_token? (keep y (by simp [member]))]
      exact walks.quiet y member
    · rw [declaredAfter_congr fun id member => keep id (by simp [member])]
      exact id
  · have keep : ∀ id ∈ z ++ k :: (header ++ [x]), d.token? id = c.token? id := by
      intro id member
      refine guarded.same id ?_
      simp only [same, List.mem_append, List.mem_cons] at member ⊢
      tauto
    have front : before = left ++ (new.ids ++ z) := by
      have whole := walks.order.symm.trans guarded.order'
      rw [same, ← List.append_assoc, ← List.append_assoc] at whole
      simpa using List.append_cancel_right whole
    refine .inr ⟨left ++ (old.ids ++ z), rest, ⟨by simp [guarded.order, same], ?_, ?_⟩, ?_⟩
    · rw [← Chain.tokenIs_eq_of_token? (keep k (by simp))]
      exact walks.keyword
    · intro y member
      rw [← Chain.tokenIs_eq_of_token? (keep y (by simp [member]))]
      exact walks.quiet y member
    · rw [front, guarded.declared z k _ same walks.keyword]
      exact id
  · exact .inl inside

theorem headerAt (at' : HeaderAt d before k header b rest) : b ∈ new.ids ∨
    ∃ before' rest', HeaderAt c before' k header b rest' := by
  have plain : d.tokenIs (·.isPunctuation ';') b = false := by
    obtain ⟨u, token, brace⟩ := Chain.tokenIs_iff.mp at'.brace
    simp only [Token.isPunctuation, Bool.and_eq_true, beq_iff_eq] at brace
    simp [Chain.tokenIs_of_token? token, Token.isPunctuation, brace.2]
  by_cases inside : b ∈ new.ids
  · exact .inl inside
  rcases guarded.walk at'.walks plain with found | ⟨before', rest', walks, declared⟩
  · exact .inl found
  · refine .inr ⟨before', rest', walks.order, walks.keyword, declared at'.declared, walks.quiet, ?_⟩
    have placed : b ∈ left ++ right := by
      have member : b ∈ d.order := by simp [at'.order]
      rw [guarded.order'] at member
      simp only [List.mem_append] at member ⊢
      tauto
    rw [← Chain.tokenIs_eq_of_token? (guarded.same b placed)]
    exact at'.brace

end Guarded

/-! ### What guards a place -/

/-- Where a walk can lie: before the place, after it, into it, across it or out of it. -/
theorem walk_cases {n : List NodeId}
    (whole : left ++ (n ++ right) = before ++ k :: (header ++ x :: rest)) :
    (∃ z, left = before ++ k :: (header ++ x :: z)) ∨
    (∃ z, right = z ++ k :: (header ++ x :: rest)) ∨ x ∈ n ∨
    (∃ h₁ h₂, left = before ++ k :: h₁ ∧ header = h₁ ++ (n ++ h₂) ∧ right = h₂ ++ x :: rest) ∨
    ∃ n₁ n₂ h₂, n = n₁ ++ k :: n₂ ∧ header = n₂ ++ h₂ ∧ right = h₂ ++ x :: rest := by
  have into : ∀ y z, n = y ++ k :: z → z ++ right = header ++ x :: rest → x ∈ n ∨
      ∃ n₁ n₂ h₂, n = n₁ ++ k :: n₂ ∧ header = n₂ ++ h₂ ∧ right = h₂ ++ x :: rest := by
    intro y z same tail
    rcases List.append_eq_append_iff.mp tail with ⟨w, rfl, rfl⟩ | ⟨w, rfl, ends⟩
    · exact .inr ⟨y, z, w, same, rfl, rfl⟩
    · cases w with
      | nil => exact .inr ⟨y, header, [], by simpa using same, by simp, by simpa using ends.symm⟩
      | cons first w =>
        obtain ⟨rfl, -⟩ := List.cons.inj ends
        exact .inl (by simp [same])
  rcases List.append_eq_append_iff.mp whole with ⟨y, rfl, tail⟩ | ⟨y, rfl, tail⟩
  · rcases List.append_eq_append_iff.mp tail with ⟨z, rfl, ends⟩ | ⟨z, same, ends⟩
    · exact .inr (.inl ⟨z, ends⟩)
    · cases z with
      | nil => exact .inr (.inl ⟨[], by simpa using ends.symm⟩)
      | cons first z =>
        obtain ⟨rfl, tail'⟩ := List.cons.inj ends
        rcases into y z same tail'.symm with found | found
        · exact .inr (.inr (.inl found))
        · exact .inr (.inr (.inr (.inr found)))
  · cases y with
    | nil =>
      cases n with
      | nil => exact .inr (.inl ⟨[], by simpa using tail.symm⟩)
      | cons first n =>
        obtain ⟨rfl, ends⟩ := List.cons.inj tail
        rcases into [] n rfl ends.symm with found | found
        · exact .inr (.inr (.inl found))
        · exact .inr (.inr (.inr (.inr found)))
    | cons first h₁ =>
      obtain ⟨rfl, ends⟩ := List.cons.inj tail
      rcases List.append_eq_append_iff.mp ends with ⟨w, rfl, ends'⟩ | ⟨w, rfl, ends'⟩
      · cases w with
        | nil =>
          cases n with
          | nil =>
            exact .inr (.inr (.inr (.inl ⟨header, [], by simp, by simp, by simpa using ends'.symm⟩)))
          | cons first n =>
            obtain ⟨rfl, -⟩ := List.cons.inj ends'
            exact .inr (.inr (.inl List.mem_cons_self))
        | cons first z =>
          obtain ⟨rfl, -⟩ := List.cons.inj ends'
          exact .inl ⟨z, by simp⟩
      · rcases List.append_eq_append_iff.mp ends' with ⟨h₂, rfl, rfl⟩ | ⟨u, rfl, stop⟩
        · exact .inr (.inr (.inr (.inl ⟨h₁, h₂, rfl, rfl, rfl⟩)))
        · cases u with
          | nil =>
            exact .inr (.inr (.inr (.inl ⟨h₁, [], rfl, by simp, by simpa using stop.symm⟩)))
          | cons first u =>
            obtain ⟨rfl, -⟩ := List.cons.inj stop
            exact .inr (.inr (.inl (by simp)))

theorem endsHeader_of_semicolon (ends : c.tokenIs (·.isPunctuation ';') t = true) :
    c.tokenIs endsHeader t = true := by
  obtain ⟨u, token, mark⟩ := Chain.tokenIs_iff.mp ends
  simp [Chain.tokenIs_of_token? token, endsHeader, mark]

theorem semicolon_not_mem {l : List NodeId} (quiet : ∀ x ∈ l, c.tokenIs endsHeader x = false)
    (ends : c.tokenIs (·.isPunctuation ';') t = true) : t ∉ l := by
  intro member
  have stays := quiet t member
  simp [endsHeader_of_semicolon ends] at stays

/-- A header ends before the first semicolon behind its keyword. -/
theorem HeaderAt.ends_before {v z : List NodeId}
    (at' : HeaderAt c before k header b rest) (ends : c.tokenIs (·.isPunctuation ';') t = true)
    (tail : header ++ b :: rest = v ++ t :: z) : ∃ w, v = header ++ b :: w := by
  have stop : t ∉ header := semicolon_not_mem at'.quiet ends
  have different : b ≠ t := by
    rintro rfl
    obtain ⟨u, token, brace⟩ := Chain.tokenIs_iff.mp at'.brace
    simp only [Token.isPunctuation, Bool.and_eq_true, beq_iff_eq] at brace
    simp [Chain.tokenIs_of_token? token, Token.isPunctuation, brace.2] at ends
  rcases List.append_eq_append_iff.mp tail with ⟨w, same, beyond⟩ | ⟨w, same, beyond⟩
  · cases w with
    | nil => exact (different (List.cons.inj beyond).1).elim
    | cons first w =>
      obtain ⟨rfl, -⟩ := List.cons.inj beyond
      exact ⟨w, same⟩
  · cases w with
    | nil => exact (different (List.cons.inj beyond).1.symm).elim
    | cons first w =>
      obtain ⟨rfl, -⟩ := List.cons.inj beyond
      exact (stop (by simp [same])).elim

theorem ne_of_keyword {p : Token → Bool} (keyword : c.tokenIs (·.isKeyword "class") k = true)
    (holds : c.tokenIs p t = true) (apart : ∀ u : Token, u.kind = .keyword → p u = false) : k ≠ t := by
  rintro rfl
  obtain ⟨u, token, holds⟩ := Chain.tokenIs_iff.mp holds
  simp only [Chain.tokenIs_of_token? token, Token.isKeyword, Bool.and_eq_true, beq_iff_eq] at keyword
  simp [apart u keyword.1] at holds

theorem ne_semicolon (keyword : c.tokenIs (·.isKeyword "class") k = true)
    (ends : c.tokenIs (·.isPunctuation ';') t = true) : k ≠ t :=
  ne_of_keyword keyword ends fun u kind => by simp [Token.isPunctuation, kind]

/-- The nodes have a semicolon with no keyword behind it. -/
def Sealed (d : Chain) (n : List NodeId) : Prop :=
  ∃ a s b, n = a ++ s :: b ∧ d.tokenIs (·.isPunctuation ';') s = true ∧
    ∀ y ∈ b, d.tokenIs (·.isKeyword "class") y = false

/-- No walk comes out of sealed nodes. -/
theorem Walks.not_out {n₁ n₂ h : List NodeId} (walks : Walks d before k (n₂ ++ h) x rest)
    (sealed : Sealed d (n₁ ++ k :: n₂)) : False := by
  obtain ⟨a, s, b', same, ends, clear⟩ := sealed
  have stop : s ∉ n₂ := fun member =>
    semicolon_not_mem walks.quiet ends (List.mem_append_left h member)
  rcases List.append_eq_append_iff.mp same with ⟨y, rfl, tail⟩ | ⟨y, rfl, tail⟩
  · cases y with
    | nil => exact ne_semicolon walks.keyword ends (List.cons.inj tail).1
    | cons first y => exact stop (by simp [(List.cons.inj tail).2])
  · cases y with
    | nil => exact ne_semicolon walks.keyword ends (List.cons.inj tail).1.symm
    | cons first y =>
      have out := clear k (by simp [(List.cons.inj tail).2])
      simp [walks.keyword] at out

theorem Walks.not_across {h₁ n h₂ : List NodeId} (walks : Walks d before k (h₁ ++ (n ++ h₂)) x rest)
    (sealed : Sealed d n) : False := by
  obtain ⟨a, s, b', rfl, ends, -⟩ := sealed
  exact semicolon_not_mem walks.quiet ends (by simp)

theorem declaredAfter_of_visible {z : List NodeId} (swap : Swap c d left old new right)
    {tail : List NodeId} (same : right = z ++ k :: tail) (inside : t ∈ z)
    (seen : c.isWhitespace t = false) :
    declaredAfter d (left ++ (new.ids ++ z)) = declaredAfter c (left ++ (old.ids ++ z)) := by
  have keep : ∀ id ∈ z, d.token? id = c.token? id := fun id member =>
    swap.same id (by simp [same, member])
  have visible : c.visible z ≠ [] :=
    List.ne_nil_of_mem (Chain.mem_visible.mpr ⟨inside, seen⟩)
  have visible' : d.visible z ≠ [] := by
    refine List.ne_nil_of_mem (Chain.mem_visible.mpr ⟨inside, ?_⟩)
    rw [Chain.isWhitespace, Chain.tokenIs_eq_of_token? (keep t inside)]
    exact seen
  rw [← List.append_assoc, ← List.append_assoc, declaredAfter_append visible',
    declaredAfter_append visible, declaredAfter_congr keep]

theorem isWhitespace_of_punctuation {p : Token → Bool} (holds : c.tokenIs p t = true)
    (apart : ∀ u : Token, u.kind = .whitespace → p u = false) : c.isWhitespace t = false := by
  obtain ⟨u, token, holds⟩ := Chain.tokenIs_iff.mp holds
  rw [Chain.isWhitespace, Chain.tokenIs_of_token? token, Token.isWhitespace, beq_eq_false_iff_ne]
  intro kind
  simp [apart u kind] at holds

/-- A semicolon right after the place guards it. -/
theorem guarded_of_semicolon (swap : Swap c d left old .nil (t :: right))
    (ends : c.tokenIs (·.isPunctuation ';') t = true) : Guarded c d left old .nil (t :: right) where
  toSwap := swap
  walks := by
    intro before k header x rest walks plain
    have ends' : d.tokenIs (·.isPunctuation ';') t = true := by
      rw [Chain.tokenIs_eq_of_token? (swap.same t (by simp))]
      exact ends
    rcases walk_cases (swap.order'.symm.trans walks.order) with
      found | found | inside | ⟨h₁, h₂, -, rfl, same⟩ | ⟨n₁, n₂, h₂, same, -⟩
    · exact .inl found
    · exact .inr (.inl found)
    · simp [Forest.ids] at inside
    · cases h₂ with
      | nil =>
        obtain ⟨rfl, -⟩ := List.cons.inj same
        simp [ends'] at plain
      | cons first h₂ =>
        obtain ⟨rfl, -⟩ := List.cons.inj same
        exact (semicolon_not_mem walks.quiet ends' (by simp)).elim
    · simp [Forest.ids] at same
  declared := by
    intro z k tail same keyword
    have ends' : d.tokenIs (·.isPunctuation ';') t = true := by
      rw [Chain.tokenIs_eq_of_token? (swap.same t (by simp))]
      exact ends
    cases z with
    | nil => exact (ne_semicolon keyword ends' (List.cons.inj same).1.symm).elim
    | cons first z =>
      obtain ⟨rfl, -⟩ := List.cons.inj same
      exact declaredAfter_of_visible swap same List.mem_cons_self
        (isWhitespace_of_punctuation ends fun u kind => by simp [Token.isPunctuation, kind])

/-- Sealed nodes are guarded before the closing bracket of a group. -/
theorem guarded_of_closer {spaces : List NodeId} (swap : Swap c d left .nil new (spaces ++ e :: right))
    (sealed : Sealed d new.ids) (blank : ∀ y ∈ spaces, c.isWhitespace y = true)
    (closes : c.closes e = true) : Guarded c d left .nil new (spaces ++ e :: right) where
  toSwap := swap
  walks := by
    intro before k header x rest walks plain
    rcases walk_cases (swap.order'.symm.trans walks.order) with
      found | found | inside | ⟨h₁, h₂, -, rfl, -⟩ | ⟨n₁, n₂, h₂, same, rfl, -⟩
    · exact .inl found
    · exact .inr (.inl found)
    · exact .inr (.inr inside)
    · exact (walks.not_across sealed).elim
    · exact (walks.not_out (same ▸ sealed)).elim
  declared := by
    intro z k tail same keyword
    have keyword : c.tokenIs (·.isKeyword "class") k = true := by
      rw [← Chain.tokenIs_eq_of_token? (swap.same k (by simp [same]))]
      exact keyword
    have seen : c.isWhitespace e = false := isWhitespace_of_punctuation closes fun u kind => by
      simp [Token.closesGroup, Token.isPunctuation, kind]
    have different : k ≠ e := ne_of_keyword keyword closes fun u kind => by
      simp [Token.closesGroup, Token.isPunctuation, kind]
    have apart : k ∉ spaces := fun member => ne_of_keyword keyword (blank k member)
      (fun u kind => by simp [Token.isWhitespace, kind]) rfl
    refine declaredAfter_of_visible swap same ?_ seen
    rcases List.append_eq_append_iff.mp same with ⟨y, rfl, ends⟩ | ⟨y, rfl, ends⟩
    · cases y with
      | nil => exact (different (List.cons.inj ends).1.symm).elim
      | cons first y =>
        obtain ⟨rfl, -⟩ := List.cons.inj ends
        simp
    · cases y with
      | nil => exact (different (List.cons.inj ends).1).elim
      | cons first y =>
        obtain ⟨rfl, -⟩ := List.cons.inj ends
        exact (apart (by simp)).elim

theorem declaredAfter_spaces {l spaces : List NodeId} (blank : ∀ y ∈ spaces, c.isWhitespace y = true) :
    declaredAfter c (l ++ spaces) = declaredAfter c l := by
  rw [declaredAfter, declaredAfter, Chain.visible_append, Chain.visible_of_spaces blank,
    List.append_nil]

/-- Only an operator or a keyword can say that no class is declared. -/
theorem kind_of_undeclared
    (holds : c.tokenIs (fun u => u.isOperator "::" || u.isKeyword "new") x = true) :
    ∃ u, c.token? x = some u ∧ (u.isOperator "::" = true ∨ u.kind = .keyword) := by
  obtain ⟨u, token, holds⟩ := Chain.tokenIs_iff.mp holds
  refine ⟨u, token, ?_⟩
  simp only [Token.isKeyword, Bool.or_eq_true, Bool.and_eq_true, beq_iff_eq] at holds
  tauto

theorem significant_of_undeclared
    (holds : c.tokenIs (fun u => u.isOperator "::" || u.isKeyword "new") x = true) :
    c.tokenIs Token.isSignificant x = true ∧ c.tokenIs (·.kind == .punctuation) x = false := by
  obtain ⟨u, token, operator | keyword⟩ := kind_of_undeclared holds
  · simp only [Token.isOperator, Bool.and_eq_true, beq_iff_eq] at operator
    simp [Chain.tokenIs_of_token? token, Token.isSignificant, Token.isWhitespace, Token.isComment,
      operator.1]
  · simp [Chain.tokenIs_of_token? token, Token.isSignificant, Token.isWhitespace, Token.isComment,
      keyword]

theorem kind_of_mark {mark : Char} (holds : c.tokenIs (·.isPunctuation mark) x = true) :
    c.tokenIs (·.kind == .punctuation) x = true := by
  obtain ⟨u, token, holds⟩ := Chain.tokenIs_iff.mp holds
  rw [Chain.tokenIs_of_token? token]
  exact (Bool.and_eq_true_iff.mp holds).1

/-- A class can be declared after a semicolon and comments. -/
theorem declaredAfter_fillers {fillers : List NodeId} (ends : c.tokenIs (·.isPunctuation ';') t = true)
    (plain : ∀ y ∈ fillers, c.tokenIs Token.isSignificant y = false) :
    declaredAfter c (left ++ t :: fillers) = true := by
  have seen : c.isWhitespace t = false :=
    isWhitespace_of_punctuation ends fun u kind => by simp [Token.isPunctuation, kind]
  have some : c.visible (t :: fillers) ≠ [] :=
    List.ne_nil_of_mem (Chain.mem_visible.mpr ⟨List.mem_cons_self, seen⟩)
  rw [declaredAfter_append some, declaredAfter]
  cases last : (c.visible (t :: fillers)).getLast? with
  | none => rfl
  | some y =>
    obtain ⟨inside, -⟩ := Chain.mem_visible.mp (List.mem_of_getLast? last)
    rw [Bool.not_eq_true', Bool.eq_false_iff]
    intro holds
    obtain ⟨significant, other⟩ := significant_of_undeclared holds
    rcases List.mem_cons.mp inside with rfl | member
    · simp [kind_of_mark ends] at other
    · simp [plain y member] at significant

/-- Sealed nodes are guarded after a semicolon and fillers. -/
theorem guarded_of_fillers {fillers : List NodeId}
    (swap : Swap c d (left ++ t :: fillers) .nil new right) (sealed : Sealed d new.ids)
    (ends : c.tokenIs (·.isPunctuation ';') t = true)
    (plain : ∀ y ∈ fillers, c.tokenIs Token.isSignificant y = false)
    (seen : d.visible new.ids ≠ []) (declares : declaredAfter d new.ids = true) :
    Guarded c d (left ++ t :: fillers) .nil new right where
  toSwap := swap
  walks := by
    intro before k header x rest walks plainEnd
    rcases walk_cases (swap.order'.symm.trans walks.order) with
      found | found | inside | ⟨h₁, h₂, same, rfl, -⟩ | ⟨n₁, n₂, h₂, same, rfl, -⟩
    · exact .inl found
    · exact .inr (.inl found)
    · exact .inr (.inr inside)
    · exact (walks.not_across sealed).elim
    · exact (walks.not_out (same ▸ sealed)).elim
  declared := by
    intro z k tail same keyword
    by_cases visible : ∃ y ∈ z, c.isWhitespace y = false
    · obtain ⟨y, inside, seen⟩ := visible
      exact declaredAfter_of_visible swap same inside seen
    · have blank : ∀ y ∈ z, c.isWhitespace y = true := by simpa using visible
      have blank' : ∀ y ∈ z, d.isWhitespace y = true := by
        intro y member
        rw [Chain.isWhitespace, Chain.tokenIs_eq_of_token? (swap.same y (by simp [same, member]))]
        exact blank y member
      rw [← List.append_assoc, declaredAfter_spaces blank', declaredAfter_append seen, declares,
        ← List.append_assoc, declaredAfter_spaces blank]
      simp only [Forest.ids, List.append_nil]
      exact (declaredAfter_fillers ends plain).symm

end Restyle.ClassDecl
