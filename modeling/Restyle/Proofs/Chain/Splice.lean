import Restyle.Proofs.Chain.WellFormed

/-!
# Splices

Every edit at a place of a chain does the same: after a node it takes out some nodes, perhaps none,
and puts in at most one fresh node. `Spliced.wellFormed` says that such an edit keeps a chain
well-formed, and `Spliced.isRun` what it makes of the run it is done in.
-/

namespace Restyle.Chain
open Trail (IsPath)
variable {c d : Chain} {p : NodeId} {mid before post : List NodeId} {after fresh : Option NodeId}

/-- A place to splice at: the nodes `mid` follow `p`, then comes `after`. -/
structure Site (c : Chain) (p : NodeId) (mid : List NodeId) (after fresh : Option NodeId) : Prop where
  path : IsPath c.next? (p :: mid)
  next : c.next? ((p :: mid).getLast (by simp)) = after
  known : c.Known p
  fresh : ∀ n, fresh = some n → c.state? n = some .unlinked ∧ n ≠ p

/-- `d` is `c` with the nodes `mid` after `p` taken out and `fresh` put in their place. -/
structure Spliced (c d : Chain) (p : NodeId) (mid : List NodeId) (after fresh : Option NodeId) :
    Prop where
  next? : ∀ x, d.next? x = if x ∈ mid then none else if x = p then fresh.or after
    else if fresh = some x then after else c.next? x
  previous? : ∀ x, d.previous? x = if x ∈ mid then none else if after = some x then fresh.or (some p)
    else if fresh = some x then some p else c.previous? x
  state? : ∀ x, d.state? x = if x ∈ mid then some .orphaned
    else if x = p ∨ fresh = some x then some .linked else c.state? x
  token? : ∀ x, d.token? x = c.token? x
  size : d.size = c.size
  head : d.head = match c.head with
    | some h => if h ∈ mid then some p else some h
    | none => some p

/-! ### The nodes around a place -/

section Site

theorem Site.path_after (site : c.Site p mid after fresh) :
    IsPath c.next? (p :: mid ++ after.toList) := by
  refine List.isChain_append.mpr ⟨site.path, ?_, ?_⟩
  · cases after <;> simp
  · intro x last y first
    rw [List.getLast?_eq_some_getLast (by simp)] at last
    cases after with
    | none => simp at first
    | some q =>
      obtain rfl : q = y := by simpa using first
      rw [← Option.some.inj last, site.next]

theorem Site.nodup (wf : c.WellFormed) (site : c.Site p mid after fresh) :
    (p :: mid ++ after.toList).Nodup := wf.path_nodup site.path_after

theorem Site.not_mem (wf : c.WellFormed) (site : c.Site p mid after fresh) :
    p ∉ mid ∧ ∀ q, after = some q → q ∉ mid ∧ q ≠ p := by
  have nodup := site.nodup wf
  cases after with
  | none => simp_all
  | some q =>
    simp only [Option.toList_some, List.cons_append, List.nodup_cons, List.mem_append,
      List.mem_singleton, not_or, List.nodup_append] at nodup
    refine ⟨nodup.1.1, ?_⟩
    rintro _ ⟨rfl⟩
    exact ⟨fun inside => nodup.2.2.2 q inside q rfl rfl, fun same => nodup.1.2 same.symm⟩

/-- From the nodes of a place the links lead into it or to what comes after. -/
theorem Site.next_mem (site : c.Site p mid after fresh) {x y : NodeId} (member : x ∈ p :: mid)
    (next : c.next? x = some y) : y ∈ mid ∨ after = some y := by
  rcases site.path.next_mem member next with inside | last
  · exact .inl inside
  · rw [List.getLast?_eq_some_getLast (by simp)] at last
    have same := site.next
    rw [Option.some.inj last, next] at same
    exact .inr same.symm

/-- Links into a place, or to what comes after it, come from the place. -/
theorem Site.mem_of_next (wf : c.WellFormed) (site : c.Site p mid after fresh) {x y : NodeId}
    (inside : y ∈ mid ∨ after = some y) (next : c.next? x = some y) : x ∈ p :: mid := by
  have unique : ∀ z, c.next? z = some y → x = z := by
    intro z other
    have back := (wf.symmetric x y).mp next
    rw [(wf.symmetric z y).mp other] at back
    exact (Option.some.inj back).symm
  rcases inside with inside | last
  · obtain ⟨z, member, other⟩ := site.path.exists_step (y := y) (by simpa using inside)
    rwa [unique z other]
  · rw [unique _ (site.next.trans last)]
    exact List.getLast_mem _

/-- A fresh node stands alone. -/
theorem Site.fresh_alone (wf : c.WellFormed) (site : c.Site p mid after fresh) {n : NodeId}
    (new : fresh = some n) :
    c.next? n = none ∧ c.previous? n = none ∧ n ∉ mid ∧ after ≠ some n := by
  obtain ⟨alone, back⟩ := wf.idle n .unlinked (site.fresh n new).1 (by simp)
  refine ⟨alone, back, ?_, ?_⟩
  · intro inside
    obtain ⟨z, -, next⟩ := site.path.exists_step (y := n) (by simpa using inside)
    simp [(wf.symmetric z n).mp next] at back
  · intro last
    have next := site.next.trans last
    simp [(wf.symmetric _ n).mp next] at back

end Site

/-! ### What a splice keeps -/

section Spliced
variable (wf : c.WellFormed) (site : c.Site p mid after fresh)
  (spliced : Spliced c d p mid after fresh)
include wf site spliced

theorem Spliced.symmetric (a b : NodeId) : d.next? a = some b ↔ d.previous? b = some a := by
  have outside := site.not_mem wf
  have leaving : ∀ x y, x ∈ p :: mid → c.next? x = some y → y ∈ mid ∨ after = some y :=
    fun _ _ => site.next_mem
  have entering : ∀ x y, y ∈ mid ∨ after = some y → c.next? x = some y → x ∈ p :: mid :=
    fun _ _ => site.mem_of_next wf
  have alone : ∀ n, fresh = some n →
      c.next? n = none ∧ c.previous? n = none ∧ n ∉ mid ∧ after ≠ some n :=
    fun _ => site.fresh_alone wf
  have new := site.fresh
  have symmetric := wf.symmetric
  rw [spliced.next?, spliced.previous?]
  rcases fresh with _ | n
  · simp only [Option.none_or, reduceCtorEq, if_false]
    constructor <;> intro h <;> grind
  · simp only [Option.some_or, Option.some.injEq]
    constructor <;> intro h <;> grind

omit wf site in
/-- Where a link of the spliced chain comes from. -/
theorem Spliced.next?_cases {a b : NodeId} (next : d.next? a = some b) :
    (a = p ∧ (fresh = some b ∨ fresh = none ∧ after = some b)) ∨ (fresh = some a ∧ after = some b) ∨
      (a ∉ p :: mid ∧ fresh ≠ some a ∧ c.next? a = some b) := by
  rw [spliced.next?] at next
  split at next
  · simp at next
  · split at next
    · rename_i same
      rcases fresh with _ | n
      · exact .inl ⟨same, .inr ⟨rfl, by simpa using next⟩⟩
      · exact .inl ⟨same, .inl (by simpa using next)⟩
    · split at next
      · rename_i new
        exact .inr (.inl ⟨new, next⟩)
      · rename_i outside different new
        exact .inr (.inr ⟨by simp [outside, different], new, next⟩)

/-- A fresh node fits between the ranks of its neighbors once they are doubled. -/
theorem Spliced.exists_rank : ∃ rank, d.Ranked rank := by
  obtain ⟨rank, ranked⟩ := wf.exists_rank
  have drop : ∀ q, after = some q → rank q < rank p := by
    rintro q rfl
    have lower := ranked.pairwise site.path_after
    simp only [Option.toList_some, List.cons_append, List.pairwise_cons, List.mem_append,
      List.mem_singleton] at lower
    exact lower.1 q (.inr rfl)
  refine ⟨fun x => if fresh = some x then 2 * rank p + 1 else 2 * rank x + 2, ?_⟩
  intro a b next
  show (if fresh = some b then 2 * rank p + 1 else 2 * rank b + 2) <
    (if fresh = some a then 2 * rank p + 1 else 2 * rank a + 2)
  have notPlace : fresh ≠ some p := fun new => (site.fresh p new).2 rfl
  rcases spliced.next?_cases next with ⟨rfl, new | ⟨none, last⟩⟩ | ⟨new, last⟩ | ⟨-, old, link⟩
  · rw [if_pos new, if_neg notPlace]
    omega
  · have := drop b last
    simp only [none, reduceCtorEq, if_false]
    omega
  · have := drop b last
    rw [if_pos new, if_neg fun same => (site.fresh_alone wf same).2.2.2 last]
    omega
  · have := ranked a b link
    have notFresh : fresh ≠ some b := by
      intro new
      have alone := (site.fresh_alone wf new).2.1
      simp [(wf.symmetric a b).mp link] at alone
    rw [if_neg old, if_neg notFresh]
    omega

theorem Spliced.idle (x : NodeId) (s : NodeState) (state : d.state? x = some s)
    (idle : s ≠ .linked) : d.next? x = none ∧ d.previous? x = none := by
  rw [spliced.state?] at state
  rw [spliced.next?, spliced.previous?]
  by_cases inside : x ∈ mid
  · simp [inside]
  · rw [if_neg inside] at state
    split at state
    · exact (idle (Option.some.inj state).symm).elim
    · rename_i other
      obtain ⟨different, old⟩ := not_or.mp other
      obtain ⟨next, previous⟩ := wf.idle x s state idle
      have notLast : after ≠ some x := by
        intro last
        simp [(wf.symmetric _ x).mp (site.next.trans last)] at previous
      simp [inside, different, old, next, previous, notLast]

theorem Spliced.head_linked (x : NodeId) (head : d.head = some x) : d.state? x = some .linked := by
  have place := (site.not_mem wf).1
  rw [spliced.head] at head
  rw [spliced.state?]
  cases old : c.head with
  | none =>
    obtain rfl : p = x := by simpa [old] using head
    simp [place]
  | some h =>
    by_cases inside : h ∈ mid
    · obtain rfl : p = x := by simpa [old, inside] using head
      simp [place]
    · obtain rfl : h = x := by simpa [old, inside] using head
      simp [inside, wf.head_linked h old]

/-- A splice keeps a chain well-formed. -/
theorem Spliced.wellFormed : d.WellFormed where
  inRange := known_of_symmetric (spliced.symmetric wf site)
  symmetric := spliced.symmetric wf site
  ends := by
    obtain ⟨rank, ranked⟩ := spliced.exists_rank wf site
    exact ends_of_ranked ranked
  idle := spliced.idle wf site
  head_linked := spliced.head_linked wf site
  headless := by
    intro head
    rw [spliced.head] at head
    cases old : c.head with
    | none => simp [old] at head
    | some h =>
      simp only [old] at head
      split at head <;> simp at head

omit spliced in
/-- The nodes of the run before and after the place are none of those a splice touches. -/
theorem Site.apart (run : c.IsRun (before ++ p :: mid ++ post)) {x : NodeId}
    (member : x ∈ before ∨ x ∈ post) : x ∉ mid ∧ x ≠ p ∧ fresh ≠ some x := by
  have nodup := wf.path_nodup run.path
  simp only [List.append_assoc, List.cons_append, List.nodup_append, List.nodup_cons,
    List.mem_cons, List.mem_append] at nodup
  have linked : c.next? x ≠ none ∨ c.previous? x ≠ none := by
    rcases member with member | member
    · obtain ⟨left, right, rfl⟩ := List.append_of_mem member
      have run' : c.IsRun (left ++ x :: (right ++ p :: mid ++ post)) := by simpa using run
      have next := run'.next?_of_append
      left
      cases right <;> simp [next]
    · obtain ⟨left, right, rfl⟩ := List.append_of_mem member
      have run' : c.IsRun (before ++ p :: mid ++ left ++ x :: right) := by simpa using run
      have previous := run'.previous?_of_append wf
      right
      simp [previous]
  refine ⟨?_, ?_, ?_⟩
  · intro inside
    rcases member with member | member
    · exact nodup.2.2 x member x (.inr (.inl inside)) rfl
    · exact nodup.2.1.2.2.2 x inside x member rfl
  · rintro rfl
    rcases member with member | member
    · exact nodup.2.2 x member x (.inl rfl) rfl
    · exact nodup.2.1.1 (.inr member)
  · intro new
    have alone := site.fresh_alone wf new
    simp [alone.1, alone.2.1] at linked

omit wf spliced in
/-- What comes after a place is what the rest of the run starts with. -/
theorem Site.after_eq (run : c.IsRun (before ++ p :: mid ++ post)) : after = post.head? := by
  rw [← site.next]
  rcases List.eq_nil_or_concat mid with rfl | ⟨mid, last, rfl⟩
  · exact IsRun.next?_of_append (by simpa using run)
  · simp only [List.concat_eq_append, List.getLast_append_of_ne_nil, List.getLast_singleton,
      ← List.cons_append, ne_eq, reduceCtorEq, not_false_eq_true]
    have run' : c.IsRun (before ++ p :: mid ++ last :: post) := by simpa using run
    exact run'.next?_of_append

/-- A splice replaces `mid` by `fresh` in the run it is done in. -/
theorem Spliced.isRun (run : c.IsRun (before ++ p :: mid ++ post)) :
    d.IsRun (before ++ p :: fresh.toList ++ post) := by
  have place := (site.not_mem wf).1
  have last := site.after_eq run
  have next : ∀ x, x ∈ before ∨ x ∈ post → d.next? x = c.next? x := by
    intro x member
    obtain ⟨outside, different, old⟩ := site.apart wf run member
    rw [spliced.next?, if_neg outside, if_neg different, if_neg old]
  have nextPlace : d.next? p = fresh.or after := by
    rw [spliced.next?, if_neg place, if_pos rfl]
  have nextFresh : ∀ n, fresh = some n → d.next? n = after := by
    intro n new
    rw [spliced.next?, if_neg (site.fresh_alone wf new).2.2.1, if_neg (site.fresh n new).2,
      if_pos new]
  have tail : IsPath d.next? post :=
    run.path.right.congr fun x member => next x (.inr (List.dropLast_subset _ member))
  refine ⟨?_, ?_, ?_⟩
  · have left : IsPath d.next? (before ++ [p]) := by
      have path := run.path
      rw [List.append_assoc, List.cons_append] at path
      refine (Trail.isPath_append_cons.mp path).1.congr ?_
      intro x member
      exact next x (.inl (by simpa using member))
    rw [List.append_assoc, List.cons_append]
    refine Trail.isPath_append_cons.mpr ⟨left, ?_⟩
    cases fresh with
    | none =>
      cases post with
      | nil => simp
      | cons q post => simp_all
    | some n =>
      have nextNew := nextFresh n rfl
      cases post with
      | nil => simp_all
      | cons q post => simp_all
  · intro f first
    have old : f ∈ (before ++ p :: mid ++ post).head? := by
      cases before <;> simp_all
    have previous := run.first f old
    have notAfter : after ≠ some f := by
      intro same
      simp [(wf.symmetric _ f).mp (site.next.trans same)] at previous
    have outside : f ∉ mid ∧ fresh ≠ some f := by
      cases before with
      | nil =>
        obtain rfl : p = f := by simpa using first
        exact ⟨place, fun new => (site.fresh p new).2 rfl⟩
      | cons g before =>
        obtain rfl : g = f := by simpa using first
        have apart := site.apart wf run (x := g) (.inl (by simp))
        exact ⟨apart.1, apart.2.2⟩
    rw [spliced.previous?, if_neg outside.1, if_neg notAfter, if_neg outside.2, previous]
  · intro z final
    rcases List.eq_nil_or_concat post with rfl | ⟨post, y, rfl⟩
    · simp only [List.head?_nil] at last
      cases fresh with
      | none => simp_all
      | some n =>
        have nextNew := nextFresh n rfl
        simp_all
    · simp only [List.concat_eq_append, ← List.append_assoc, List.getLast?_concat] at final
      obtain rfl : y = z := by simpa using final
      rw [next y (.inr (by simp))]
      refine run.last y ?_
      simp only [List.concat_eq_append, ← List.append_assoc, List.getLast?_concat, Option.mem_def]

end Spliced

end Restyle.Chain
