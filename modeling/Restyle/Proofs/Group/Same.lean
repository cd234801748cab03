import Restyle.Proofs.Group.Balance

/-!
# Groups that hold the same tokens

The tokens up to a closing bracket alone say how the brackets among them nest
(`Forest.tokenEq_of_tokens`). So two groups that were read are the same if and only if they hold the
same tokens, and comparing the groups inside them adds nothing: `same_decides_tokens`.
-/

namespace Restyle
open Trail (IsPath)
open Outcome

namespace Forest
variable {c : Chain} {f g : Forest} {e e' x : NodeId} {l m : List NodeId}

/-- Forests with the same tokens in the same nesting. -/
inductive TokenEq (c : Chain) : Forest → Forest → Prop
  | nil : TokenEq c .nil .nil
  | atom {x y : NodeId} {f g : Forest} (same : c.token? x = c.token? y) (rest : TokenEq c f g) :
    TokenEq c (.atom x f) (.atom y g)
  | group {o o' e e' : NodeId} {i i' f g : Forest} (opener : c.token? o = c.token? o')
    (inside : TokenEq c i i') (closer : c.token? e = c.token? e') (rest : TokenEq c f g) :
    TokenEq c (.group o i e f) (.group o' i' e' g)

theorem TokenEq.tokens (alike : TokenEq c f g) : f.ids.map c.token? = g.ids.map c.token? := by
  induction alike with
  | nil => rfl
  | atom same _ ih => simp only [ids, List.map_cons, same, ih]
  | group opener _ closer _ ih ih' =>
    simp only [ids, List.map_cons, List.map_append, opener, ih, closer, ih']

theorem TokenEq.length_groups (alike : TokenEq c f g) : f.groups.length = g.groups.length := by
  induction alike with
  | nil => rfl
  | atom _ _ ih => exact ih
  | group _ _ _ _ _ ih => simp only [groups, List.length_cons, ih]

/-- A forest does not start with a closing bracket. -/
theorem Fits.closes_head (fits : f.Fits c) (starts : f.ids = x :: l) : c.closes x = false := by
  cases f with
  | nil => simp [ids] at starts
  | atom id rest =>
    obtain ⟨rfl, -⟩ := List.cons.inj starts
    exact fits.1.2.2
  | group o inside closer rest =>
    obtain ⟨rfl, -⟩ := List.cons.inj starts
    obtain ⟨⟨bracket, opener, -⟩, -⟩ := fits
    obtain ⟨t, token, opens⟩ := Option.bind_eq_some_iff.mp opener
    rw [Bool.eq_false_iff]
    intro closes
    rw [Chain.closes, Chain.tokenIs_of_token? token] at closes
    rw [Token.closer?_of_closesGroup closes] at opens
    cases opens

theorem Fits.ne_closes (fits : f.Fits c) (starts : f.ids = x :: l) (closes : c.closes e = true) :
    c.token? x ≠ c.token? e := by
  intro same
  have open' := fits.closes_head starts
  rw [Chain.closes, Chain.tokenIs_eq_of_token? same] at open'
  rw [Chain.closes, open'] at closes
  cases closes

theorem ne_opens {a o : NodeId} {inside rest : Forest} (plain : c.opens a = false)
    (fits : (group o inside e rest).Fits c) : c.token? a ≠ c.token? o := by
  intro same
  obtain ⟨⟨bracket, opener, -⟩, -⟩ := fits
  rw [Chain.opens, Chain.tokenIs_eq_of_token? same] at plain
  have opens := opens_of_bracket opener
  rw [Chain.opens, plain] at opens
  cases opens

/-- The tokens before a closing bracket say how they nest, and where that bracket is. -/
theorem tokenEq_of_tokens (fits : f.Fits c) (fits' : g.Fits c) (closes : c.closes e = true)
    (closes' : c.closes e' = true)
    (same : (f.ids ++ e :: l).map c.token? = (g.ids ++ e' :: m).map c.token?) :
    TokenEq c f g ∧ c.token? e = c.token? e' ∧ l.map c.token? = m.map c.token? := by
  induction f generalizing g e e' l m with
  | nil =>
    cases shape : g.ids with
    | nil =>
      obtain rfl := eq_nil_of_ids shape
      obtain ⟨first, rest⟩ := List.cons.inj same
      exact ⟨.nil, first, rest⟩
    | cons y tail =>
      rw [shape] at same
      exact (fits'.ne_closes shape closes (List.cons.inj same).1.symm).elim
  | atom a rest ih =>
    cases g with
    | nil => exact (fits.ne_closes rfl closes' (List.cons.inj same).1).elim
    | atom b rest' =>
      obtain ⟨first, tail⟩ := List.cons.inj same
      obtain ⟨alike, ends, behind⟩ := ih fits.2 fits'.2 closes closes' tail
      exact ⟨.atom first alike, ends, behind⟩
    | group o inside closer rest' =>
      exact (ne_opens fits.1.2.1 fits' (List.cons.inj same).1).elim
  | group o inside closer rest ih ih' =>
    cases g with
    | nil => exact (fits.ne_closes rfl closes' (List.cons.inj same).1).elim
    | atom b rest' => exact (ne_opens fits'.1.2.1 fits (List.cons.inj same).1.symm).elim
    | group o' inside' closer' rest' =>
      obtain ⟨⟨bracket, opens, shuts⟩, fitsInside, fitsRest⟩ := fits
      obtain ⟨⟨bracket', opens', shuts'⟩, fitsInside', fitsRest'⟩ := fits'
      simp only [ids, List.cons_append, List.append_assoc, List.map_cons] at same
      obtain ⟨first, tail⟩ := List.cons.inj same
      -- The inner brackets are found first, so what is behind them is the same too.
      obtain ⟨alike, ends, behind⟩ := ih fitsInside fitsInside' (closes_of_bracket opens shuts).1
        (closes_of_bracket opens' shuts').1 tail
      obtain ⟨alike', ends', behind'⟩ := ih' fitsRest fitsRest' closes closes' behind
      exact ⟨.group first alike ends alike', ends', behind'⟩

end Forest

namespace Group
variable {c : Chain} {o o' e e' : NodeId} {f g : Forest} {l m : List NodeId}

/-! ### Comparing tokens -/

theorem sameToken_eq {a b : NodeId} (known : c.Known a) (known' : c.Known b) :
    c.sameToken a b = .ok (decide (c.token? a = c.token? b)) := by
  obtain ⟨t, token⟩ := Chain.known_iff_token?.mp known
  obtain ⟨u, token'⟩ := Chain.known_iff_token?.mp known'
  simp only [Chain.sameToken, Chain.token_ok.mpr token, Chain.token_ok.mpr token', token, token',
    bind, Except.bind, pure, Except.pure, Option.some.injEq]
  rfl

theorem sameTokens_eq (known : ∀ x ∈ l, c.Known x) (known' : ∀ x ∈ m, c.Known x)
    (length : l.length = m.length) :
    sameTokens c l m = .ok (decide (l.map c.token? = m.map c.token?)) := by
  induction l generalizing m with
  | nil =>
    obtain rfl := List.length_eq_zero_iff.mp length.symm
    rfl
  | cons a l ih =>
    cases m with
    | nil => simp at length
    | cons b m =>
      have rest := ih (fun x member => known x (List.mem_cons_of_mem _ member))
        (fun x member => known' x (List.mem_cons_of_mem _ member)) (Nat.succ.inj length)
      rw [sameTokens, sameToken_eq (known a List.mem_cons_self) (known' b List.mem_cons_self)]
      by_cases same : c.token? a = c.token? b
      · simp [same, rest]
      · simp [same]

/-! ### Groups that were read -/

theorem Opens.closes (opens : Opens c o f e) : c.closes e = true := by
  obtain ⟨⟨bracket, opener, closer⟩, -⟩ := opens.fits
  exact (Forest.closes_of_bracket opener closer).1

/-- What is compared of two groups, and in which order. -/
theorem same_eq (wf : c.WellFormed) (opens : Opens c o f e) (opens' : Opens c o' g e') :
    same c (.mk o e f.groups) (.mk o' e' g.groups) =
      if (o :: (f.ids ++ [e])).length ≠ (o' :: (g.ids ++ [e'])).length ∨
          f.groups.length ≠ g.groups.length then .ok false
      else if (o :: (f.ids ++ [e])).map c.token? = (o' :: (g.ids ++ [e'])).map c.token? then
        sameAll c f.groups g.groups
      else .ok false := by
  rw [same, Group.span, opener, closer, children, opens.span_eq wf, opens'.span_eq wf]
  simp only [bind, Except.bind, pure, Except.pure, Bool.or_eq_true, bne_iff_ne]
  split
  · rfl
  · rename_i equal
    rw [not_or, not_not] at equal
    rw [sameTokens_eq (opens.known wf) (opens'.known wf) equal.1]
    by_cases tokens : (o :: (f.ids ++ [e])).map c.token? = (o' :: (g.ids ++ [e'])).map c.token?
    · simp only [tokens, decide_true, if_true]
    · simp only [tokens, decide_false, if_false]
      rfl

/-- Groups that nest alike are the same all the way down. -/
theorem sameAll_of_tokenEq (wf : c.WellFormed) (alike : Forest.TokenEq c f g) (fits : f.Fits c)
    (fits' : g.Fits c) (path : IsPath c.next? f.ids) (path' : IsPath c.next? g.ids) :
    sameAll c f.groups g.groups = .ok true := by
  induction alike with
  | nil => simp [Forest.groups, sameAll]
  | atom _ _ ih => exact ih fits.2 fits'.2 path.of_cons path'.of_cons
  | @group o o' e e' i i' f g first inside last _ ih ih' =>
    obtain ⟨opens, pathRest⟩ := Opens.of_forest fits path
    obtain ⟨opens', pathRest'⟩ := Opens.of_forest fits' path'
    have tokens : (o :: (i.ids ++ [e])).map c.token? = (o' :: (i'.ids ++ [e'])).map c.token? := by
      simp only [List.map_cons, List.map_append, List.map_nil, first, inside.tokens, last]
    have length := congrArg List.length tokens
    simp only [List.length_map] at length
    have here : same c (.mk o e i.groups) (.mk o' e' i'.groups) = .ok true := by
      rw [same_eq wf opens opens', if_neg (by simp [length, inside.length_groups]), if_pos tokens]
      exact ih fits.2.1 fits'.2.1 opens.path.of_cons.left opens'.path.of_cons.left
    rw [Forest.groups, Forest.groups, sameAll, here]
    exact ih' fits.2.2 fits'.2.2 pathRest pathRest'

theorem Opens.tokenEq (opens : Opens c o f e) (opens' : Opens c o' g e')
    (tokens : (o :: (f.ids ++ [e])).map c.token? = (o' :: (g.ids ++ [e'])).map c.token?) :
    Forest.TokenEq c f g :=
  (Forest.tokenEq_of_tokens opens.fits.2.1 opens'.fits.2.1 opens.closes opens'.closes
    (List.cons.inj tokens).2).1

theorem Opens.sameAll_of_tokens (wf : c.WellFormed) (opens : Opens c o f e)
    (opens' : Opens c o' g e')
    (tokens : (o :: (f.ids ++ [e])).map c.token? = (o' :: (g.ids ++ [e'])).map c.token?) :
    f.groups.length = g.groups.length ∧ sameAll c f.groups g.groups = .ok true :=
  ⟨(opens.tokenEq opens' tokens).length_groups,
    sameAll_of_tokenEq wf (opens.tokenEq opens' tokens) opens.fits.2.1 opens'.fits.2.1
      opens.path.of_cons.left opens'.path.of_cons.left⟩

theorem Opens.same_eq_decide (wf : c.WellFormed) (opens : Opens c o f e) (opens' : Opens c o' g e') :
    same c (.mk o e f.groups) (.mk o' e' g.groups) =
      .ok (decide ((o :: (f.ids ++ [e])).map c.token? = (o' :: (g.ids ++ [e'])).map c.token?)) := by
  rw [same_eq wf opens opens']
  by_cases tokens : (o :: (f.ids ++ [e])).map c.token? = (o' :: (g.ids ++ [e'])).map c.token?
  · obtain ⟨count, inner⟩ := opens.sameAll_of_tokens wf opens' tokens
    have length := congrArg List.length tokens
    simp only [List.length_map] at length
    rw [if_neg (by simp [length, count]), if_pos tokens, inner, decide_eq_true tokens]
  · rw [if_neg tokens, ite_self, decide_eq_false tokens]

/-! ### Tokens decide -/

def Parsed (c : Chain) : Type := { g : Group // ∃ o, parse c o = .ok (some g) }

def tokens (c : Chain) (g : Group) : Except ChainError (List Token) := do
  (← g.span c).mapM c.token

def sameSpan (c : Chain) (g h : Group) : Except ChainError Bool := do
  let ours ← g.span c
  let theirs ← h.span c
  if ours.length != theirs.length then return false
  sameTokens c ours theirs

theorem Opens.exists_tokens (wf : c.WellFormed) (opens : Opens c o f e) :
    ∃ ts, tokens c (.mk o e f.groups) = .ok ts ∧
      (o :: (f.ids ++ [e])).map c.token? = ts.map some := by
  have known := opens.known wf
  have span : Group.span c (.mk o e f.groups) = .ok (o :: (f.ids ++ [e])) := opens.span_eq wf
  generalize o :: (f.ids ++ [e]) = l at known span
  have all : ∃ ts : List Token, l.map c.token = ts.map .ok ∧ l.map c.token? = ts.map some := by
    clear span
    induction l with
    | nil => exact ⟨[], rfl, rfl⟩
    | cons x l ih =>
      obtain ⟨ts, read, same⟩ := ih fun y member => known y (List.mem_cons_of_mem _ member)
      obtain ⟨t, token⟩ := Chain.known_iff_token?.mp (known x List.mem_cons_self)
      exact ⟨t :: ts, by simp [Chain.token_ok.mpr token, read], by simp [token, same]⟩
  obtain ⟨ts, read, same⟩ := all
  exact ⟨ts, bind_ok.mpr ⟨l, span, mapM_ok.mpr read⟩, same⟩

theorem Opens.sameSpan_eq (wf : c.WellFormed) (opens : Opens c o f e) (opens' : Opens c o' g e') :
    sameSpan c (.mk o e f.groups) (.mk o' e' g.groups) =
      .ok (decide ((o :: (f.ids ++ [e])).map c.token? = (o' :: (g.ids ++ [e'])).map c.token?)) := by
  rw [sameSpan, Group.span, Group.span, opener, closer, opener, closer, opens.span_eq wf,
    opens'.span_eq wf]
  simp only [bind, Except.bind, pure, Except.pure, bne_iff_ne]
  split
  · rename_i differ
    rw [decide_eq_false]
    intro tokens
    have length := congrArg List.length tokens
    simp only [List.length_map] at length
    exact differ length
  · rename_i equal
    exact sameTokens_eq (opens.known wf) (opens'.known wf) (not_not.mp equal)

/-- Comparing two groups that were read never fails, and they are the same if and only if they hold
the same tokens. Where the tokens agree there are as many groups inside one as inside the other and
they are the same too, so a comparison that leaves them out gives the same answer. Hence the
comparison is an equivalence. -/
theorem same_decides_tokens (wf : c.WellFormed) :
    (∀ a b : Parsed c, ∃ ts us, tokens c a.1 = .ok ts ∧ tokens c b.1 = .ok us ∧
      same c a.1 b.1 = .ok (decide (ts = us)) ∧ same c a.1 b.1 = sameSpan c a.1 b.1 ∧
      (ts = us → a.1.children.length = b.1.children.length ∧
        sameAll c a.1.children b.1.children = .ok true)) ∧
    Equivalence fun a b : Parsed c => same c a.1 b.1 = .ok true := by
  have compared : ∀ a b : Parsed c, ∃ ts us, tokens c a.1 = .ok ts ∧ tokens c b.1 = .ok us ∧
      same c a.1 b.1 = .ok (decide (ts = us)) ∧ same c a.1 b.1 = sameSpan c a.1 b.1 ∧
      (ts = us → a.1.children.length = b.1.children.length ∧
        sameAll c a.1.children b.1.children = .ok true) := by
    rintro ⟨_, o, parsed⟩ ⟨_, o', parsed'⟩
    obtain ⟨f, e, opens, rfl⟩ := (parse_ok_iff wf).mp parsed
    obtain ⟨g, e', opens', rfl⟩ := (parse_ok_iff wf).mp parsed'
    obtain ⟨ts, read, named⟩ := opens.exists_tokens wf
    obtain ⟨us, read', named'⟩ := opens'.exists_tokens wf
    have agree : ts.map some = us.map some ↔ ts = us :=
      List.map_inj_right fun _ _ => Option.some.inj
    have decides := opens.same_eq_decide wf opens'
    refine ⟨ts, us, read, read', ?_, ?_, fun same => ?_⟩
    · simpa only [named, named', agree] using decides
    · rw [decides, opens.sameSpan_eq wf opens']
    · exact opens.sameAll_of_tokens wf opens' (by rw [named, named', same])
  have same_iff : ∀ a b : Parsed c, same c a.1 b.1 = .ok true ↔ tokens c a.1 = tokens c b.1 := by
    intro a b
    obtain ⟨ts, us, read, read', decides, -⟩ := compared a b
    rw [read, read', decides, Except.ok.injEq, Except.ok.injEq, decide_eq_true_eq]
  refine ⟨compared, ?_⟩
  simp only [same_iff]
  exact ⟨fun _ => rfl, Eq.symm, Eq.trans⟩

/-- Two groups with the same tokens side by side, and one inside another. -/
theorem same_decides_tokens_twice : ∃ c : Chain, c.WellFormed ∧
    c.order.map c.textOf = [['('], ['['], [']'], [')'], ['('], ['['], [']'], [')']] ∧
    ∃ a b d : Parsed c, d.1 ∈ a.1.children ∧ b.1.opener = .ofIndex 4 ∧
      same c a.1 b.1 = .ok true ∧ same c a.1 d.1 = .ok false := by
  let start : Chain := { capacity := Limits.development.nodes }
  let c := start.afterAll (([['('], ['['], [']'], [')'], ['('], ['['], [']'], [')']].map fun text =>
      .create (.classify .punctuation text)) ++
    ((List.range 7).map fun i => .insertAfter (.ofIndex i) (.ofIndex (i + 1))))
  have starts : start.IsStart .development := .inl rfl
  have wf : c.WellFormed := (starts.wellFormed (by decide)).afterAll (by decide)
  have opens : ∀ i ∈ [0, 4], Opens c (.ofIndex i)
      (.group (.ofIndex (i + 1)) .nil (.ofIndex (i + 2)) .nil) (.ofIndex (i + 3)) := by
    have outer : ∀ i ∈ [0, 4], (c.token? (.ofIndex i)).bind Token.closer? = some ')' ∧
        c.tokenIs (·.isPunctuation ')') (.ofIndex (i + 3)) = true := by decide +kernel
    have inner : ∀ i ∈ [0, 4], (c.token? (.ofIndex (i + 1))).bind Token.closer? = some ']' ∧
        c.tokenIs (·.isPunctuation ']') (.ofIndex (i + 2)) = true := by decide +kernel
    have next : ∀ i ∈ [0, 4], ∀ j < 3,
        c.next? (.ofIndex (i + j)) = some (.ofIndex (i + j + 1)) := by decide +kernel
    intro i member
    refine ⟨⟨⟨')', outer i member⟩, ⟨⟨']', inner i member⟩, trivial, trivial⟩, trivial⟩, ?_⟩
    refine Trail.isPath_cons_cons.mpr ⟨next i member 0 (by omega), ?_⟩
    refine Trail.isPath_cons_cons.mpr ⟨next i member 1 (by omega), ?_⟩
    exact Trail.isPath_cons_cons.mpr ⟨next i member 2 (by omega), Trail.isPath_singleton _⟩
  have first := opens 0 (by simp)
  have second := opens 4 (by simp)
  have inner : Opens c (.ofIndex 1) .nil (.ofIndex 2) :=
    (Opens.of_forest first.fits.2.1 first.path.of_cons.left).1
  let inside : Group := .mk (.ofIndex 1) (.ofIndex 2) []
  let left : Group := .mk (.ofIndex 0) (.ofIndex 3) [inside]
  let right : Group := .mk (.ofIndex 4) (.ofIndex 7) [.mk (.ofIndex 5) (.ofIndex 6) []]
  have agree : (tokens c left).toOption = (tokens c right).toOption := by decide +kernel
  have differ : (tokens c left).toOption ≠ (tokens c inside).toOption := by decide +kernel
  let a : Parsed c := ⟨left, _, (parse_ok_iff wf).mpr ⟨_, _, first, rfl⟩⟩
  let b : Parsed c := ⟨right, _, (parse_ok_iff wf).mpr ⟨_, _, second, rfl⟩⟩
  let d : Parsed c := ⟨inside, _, (parse_ok_iff wf).mpr ⟨_, _, inner, rfl⟩⟩
  obtain ⟨ts, us, read, read', decides, -⟩ := (same_decides_tokens wf).1 a b
  obtain ⟨ts', vs, again, read'', decides', -⟩ := (same_decides_tokens wf).1 a d
  refine ⟨c, wf, by decide +kernel, a, b, d, List.mem_singleton_self _, rfl, ?_, ?_⟩
  · rw [read, read'] at agree
    rw [decides, decide_eq_true (Option.some.inj agree)]
  · rw [again, read''] at differ
    rw [decides', decide_eq_false fun same => differ (congrArg some same)]

end Group

end Restyle
