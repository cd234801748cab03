import Mathlib.Data.List.Chain
import Restyle.Chain.Trail

/-!
# Walks and paths

A path is a list in which every place is the step from the one before it. `walk_isWalk` says what a
walk visits, and `toList_eq_of_isWalk` that nothing else fits that description.
-/

namespace Restyle.Trail
variable {α : Type} {step : α → Option α} {stop : α → Bool}

def IsPath (step : α → Option α) (l : List α) : Prop := l.IsChain fun x y => step x = some y

@[simp] theorem isPath_nil : IsPath step [] := .nil

@[simp] theorem isPath_singleton (a : α) : IsPath step [a] := .singleton a

@[simp] theorem isPath_cons_cons {a b : α} {l : List α} :
    IsPath step (a :: b :: l) ↔ step a = some b ∧ IsPath step (b :: l) := List.isChain_cons_cons

theorem IsPath.of_cons {a : α} {l : List α} (path : IsPath step (a :: l)) : IsPath step l :=
  List.IsChain.of_cons path

theorem IsPath.left {l m : List α} (path : IsPath step (l ++ m)) : IsPath step l :=
  List.IsChain.left_of_append path

theorem IsPath.right {l m : List α} (path : IsPath step (l ++ m)) : IsPath step m :=
  List.IsChain.right_of_append path

/-- Two paths meet in a place they share. -/
theorem isPath_append_cons {l m : List α} {a : α} :
    IsPath step (l ++ a :: m) ↔ IsPath step (l ++ [a]) ∧ IsPath step (a :: m) := List.isChain_split

theorem getLastD_append_cons {l m : List α} {a b : α} :
    (l ++ b :: m).getLastD a = m.getLastD b := by
  induction l generalizing a with
  | nil => exact List.getLastD_cons
  | cons x l ih => rw [List.cons_append, List.getLastD_cons, ih]

theorem IsPath.step_getLastD {l m : List α} {a b : α} (path : IsPath step (a :: (l ++ b :: m))) :
    step (l.getLastD a) = some b := by
  induction l generalizing a with
  | nil => exact (isPath_cons_cons.mp path).1
  | cons x l ih =>
    rw [List.getLastD_cons]
    exact ih path.of_cons

/-- Only the steps from the places before the last one matter. -/
theorem IsPath.congr {other : α → Option α} {l : List α} (path : IsPath step l)
    (same : ∀ x ∈ l.dropLast, other x = step x) : IsPath other l := by
  induction l with
  | nil => simp
  | cons a l ih =>
    cases l with
    | nil => simp
    | cons b l =>
      simp only [isPath_cons_cons] at path ⊢
      simp only [List.dropLast_cons_cons, List.mem_cons, forall_eq_or_imp] at same
      exact ⟨same.1.trans path.1, ih path.2 same.2⟩

/-- A step from a place of a path stays in it, except at the end. -/
theorem IsPath.next_mem {l : List α} {x y : α}
    (path : IsPath step l) (member : x ∈ l) (next : step x = some y) :
    y ∈ l.tail ∨ l.getLast? = some x := by
  induction l with
  | nil => simp at member
  | cons a l ih =>
    cases l with
    | nil => simp_all
    | cons b l =>
      obtain ⟨first, path⟩ := Trail.isPath_cons_cons.mp path
      rcases List.mem_cons.mp member with rfl | member
      · simp_all
      · rcases ih path member with inside | last
        · exact .inl (List.mem_cons_of_mem _ inside)
        · exact .inr (by simpa using last)

theorem IsPath.exists_step {l : List α} {y : α}
    (path : IsPath step l) (member : y ∈ l.tail) : ∃ x ∈ l, step x = some y := by
  induction l with
  | nil => simp at member
  | cons a l ih =>
    cases l with
    | nil => simp at member
    | cons b l =>
      obtain ⟨first, path⟩ := Trail.isPath_cons_cons.mp path
      rcases List.mem_cons.mp member with rfl | member
      · exact ⟨a, by simp, first⟩
      · obtain ⟨x, inside, next⟩ := ih path member
        exact ⟨x, List.mem_cons_of_mem _ inside, next⟩

/-- The places `a :: l` of a walk of at most `n` steps: only the last of them may stop it, and it
goes on as long as it can. -/
structure IsWalk (step : α → Option α) (stop : α → Bool) (n : Nat) (a : α) (l : List α) :
    Prop where
  path : IsPath step (a :: l)
  quiet : ∀ x ∈ (a :: l).dropLast, stop x = false
  length_le : l.length ≤ n
  final : l.length = n ∨ stop ((a :: l).getLast (by simp)) = true ∨
    step ((a :: l).getLast (by simp)) = none

theorem isWalk_nil {n : Nat} {a : α} (final : n = 0 ∨ stop a = true ∨ step a = none) :
    IsWalk step stop n a [] where
  path := by simp
  quiet := by simp
  length_le := by simp
  final := final.imp Eq.symm id

theorem isWalk_cons {n : Nat} {a b : α} {l : List α} :
    IsWalk step stop (n + 1) a (b :: l) ↔
      stop a = false ∧ step a = some b ∧ IsWalk step stop n b l := by
  constructor
  · rintro ⟨path, quiet, bound, final⟩
    simp only [isPath_cons_cons] at path
    simp only [List.dropLast_cons_cons, List.mem_cons, forall_eq_or_imp] at quiet
    refine ⟨quiet.1, path.1, path.2, quiet.2, by simpa using bound, ?_⟩
    simpa using final
  · rintro ⟨pass, next, path, quiet, bound, final⟩
    refine ⟨by simp [next, path], ?_, by simpa using bound, by simpa using final⟩
    simpa only [List.dropLast_cons_cons, List.mem_cons, forall_eq_or_imp] using ⟨pass, quiet⟩

theorem go_toList (step : α → Option α) (stop : α → Bool) (n : Nat) (a : α)
    (passed : List α) :
    ∃ l, IsWalk step stop n a l ∧ (go step stop n a passed).toList = passed.reverse ++ a :: l := by
  induction n generalizing a passed with
  | zero => exact ⟨[], isWalk_nil (.inl rfl), by simp [go, toList]⟩
  | succ n ih =>
    rw [go]
    split
    · rename_i stopped
      exact ⟨[], isWalk_nil (.inr (.inl stopped)), by simp [toList]⟩
    · rename_i pass
      split
      · rename_i stuck
        exact ⟨[], isWalk_nil (.inr (.inr stuck)), by simp [toList]⟩
      · rename_i b next
        obtain ⟨l, walk, list⟩ := ih b (a :: passed)
        exact ⟨b :: l, isWalk_cons.mpr ⟨by simpa using pass, next, walk⟩, by simp [list]⟩

theorem walk_isWalk (step : α → Option α) (stop : α → Bool) (n : Nat) (a : α) :
    ∃ l, IsWalk step stop n a l ∧ (walk step stop n a).toList = a :: l := by
  simpa [walk] using go_toList step stop n a []

theorem IsWalk.unique {n : Nat} {a : α} {l m : List α} (left : IsWalk step stop n a l)
    (right : IsWalk step stop n a m) : l = m := by
  induction n generalizing a l m with
  | zero =>
    rw [List.eq_nil_of_length_eq_zero (Nat.le_zero.mp left.length_le),
      List.eq_nil_of_length_eq_zero (Nat.le_zero.mp right.length_le)]
  | succ n ih =>
    -- A walk that has ended cannot be one that goes on.
    have ended : ∀ {b : α} {k : List α}, IsWalk step stop (n + 1) a [] →
        ¬ IsWalk step stop (n + 1) a (b :: k) := by
      intro b k short long
      obtain ⟨pass, next, -⟩ := isWalk_cons.mp long
      simpa [pass, next] using short.final
    cases l with
    | nil =>
      cases m with
      | nil => rfl
      | cons b m => exact (ended left right).elim
    | cons b l =>
      cases m with
      | nil => exact (ended right left).elim
      | cons d m =>
        obtain ⟨-, next, left⟩ := isWalk_cons.mp left
        obtain ⟨-, next', right⟩ := isWalk_cons.mp right
        obtain rfl : b = d := Option.some.inj (next.symm.trans next')
        rw [ih left right]

theorem toList_eq_of_isWalk {n : Nat} {a : α} {l : List α} (walked : IsWalk step stop n a l) :
    (walk step stop n a).toList = a :: l := by
  obtain ⟨m, other, list⟩ := walk_isWalk step stop n a
  rw [list, walked.unique other]

theorem getLast_toList (t : Trail α) : t.toList.getLast? = some t.last := by simp [toList]

theorem toList_eq_passed (t : Trail α) : t.toList = t.passed.reverse ++ [t.last] := by simp [toList]

theorem last_eq_of_isWalk {n : Nat} {a : α} {l : List α} (walked : IsWalk step stop n a l) :
    (walk step stop n a).last = (a :: l).getLast (by simp) := by
  have last := getLast_toList (walk step stop n a)
  rw [toList_eq_of_isWalk walked, List.getLast?_eq_some_getLast (by simp)] at last
  exact (Option.some.inj last).symm

/-- The path of a walk that is never stopped and has steps to spare. -/
theorem isWalk_of_path {n : Nat} {a : α} {l : List α} (path : IsPath step (a :: l))
    (quiet : ∀ x ∈ (a :: l).dropLast, stop x = false) (enough : l.length ≤ n)
    (stuck : step ((a :: l).getLast (by simp)) = none) : IsWalk step stop n a l :=
  ⟨path, quiet, enough, .inr (.inr stuck)⟩

theorem toList_inj {s t : Trail α} (same : s.toList = t.toList) : s = t := by
  obtain ⟨last, passed⟩ := List.cons.inj (List.reverse_injective same)
  cases s
  cases t
  simp_all

/-- Where a walk along a list stops: at the first place that stops it, or else at the end. -/
theorem exists_stop {l : List α} (stop : α → Bool) (nonempty : l ≠ []) :
    ∃ quiet x rest, l = quiet ++ x :: rest ∧ (∀ y ∈ quiet, stop y = false) ∧
      (stop x = true ∨ rest = []) := by
  induction l with
  | nil => exact (nonempty rfl).elim
  | cons a l ih =>
    by_cases stopped : stop a = true
    · exact ⟨[], a, l, rfl, by simp, .inl stopped⟩
    by_cases empty : l = []
    · exact ⟨[], a, l, rfl, by simp, .inr empty⟩
    obtain ⟨quiet, x, rest, rfl, calm, ends⟩ := ih empty
    refine ⟨a :: quiet, x, rest, rfl, ?_, ends⟩
    intro y member
    rcases List.mem_cons.mp member with rfl | later
    · exact Bool.eq_false_iff.mpr stopped
    · exact calm y later

theorem walk_of_split {n : Nat} {a x : α} {l quiet rest : List α} (path : IsPath step (a :: l))
    (split : a :: l = quiet ++ x :: rest) (calm : ∀ y ∈ quiet, stop y = false)
    (ends : stop x = true ∨ step x = none) (bound : l.length ≤ n) :
    walk step stop n a = ⟨x, quiet.reverse⟩ := by
  obtain ⟨m, same⟩ : ∃ m, quiet ++ [x] = a :: m := by
    cases quiet with
    | nil => exact ⟨[], by rw [(List.cons.inj split).1]; rfl⟩
    | cons b quiet => exact ⟨quiet ++ [x], by rw [(List.cons.inj split).1]; rfl⟩
  have whole : a :: l = a :: m ++ rest := by simp [split, ← same]
  have shorter : m.length ≤ l.length := by
    have lengths := congrArg List.length whole
    simp only [List.length_append, List.length_cons] at lengths
    omega
  have final : (a :: m).getLast (by simp) = x := by simp [← same]
  have walked : IsWalk step stop n a m := by
    refine ⟨?_, ?_, by omega, .inr ?_⟩
    · rw [whole] at path
      exact path.left
    · rwa [← same, List.dropLast_concat]
    · rwa [final]
  apply toList_inj
  rw [toList_eq_of_isWalk walked, ← same, toList_eq_passed]
  simp

/-! ### Walks that come to where they stop -/

theorem IsWalk.suffix {n : Nat} {a x : α} {l before after : List α} (walked : IsWalk step stop n a l)
    (split : a :: l = before ++ x :: after) (arrived : stop ((a :: l).getLast (by simp)) = true) :
    IsWalk step stop n x after := by
  have length := congrArg List.length split
  simp only [List.length_cons, List.length_append] at length
  have bound := walked.length_le
  refine ⟨?_, ?_, by omega, .inr (.inl ?_)⟩
  · have path := walked.path
    rw [split] at path
    exact path.right
  · intro y member
    apply walked.quiet
    rw [split, List.dropLast_append_cons]
    exact List.mem_append_right before member
  · simpa [split] using arrived

/-- A walk that comes to where it stops passes no place twice: from a place passed before it would
go the same way again, and not stop earlier. -/
theorem IsWalk.nodup {n : Nat} {a : α} {l : List α} (walked : IsWalk step stop n a l)
    (arrived : stop ((a :: l).getLast (by simp)) = true) : (a :: l).Nodup := by
  induction l generalizing n a with
  | nil => simp
  | cons b l ih =>
    cases n with
    | zero =>
      have bound := walked.length_le
      simp at bound
    | succ n =>
      obtain ⟨-, -, rest⟩ := isWalk_cons.mp walked
      refine List.nodup_cons.mpr ⟨?_, ih rest (by simpa using arrived)⟩
      intro again
      obtain ⟨before, after, split⟩ := List.append_of_mem again
      have split' : a :: b :: l = a :: before ++ a :: after := by rw [split]; rfl
      have same := walked.unique (walked.suffix split' arrived)
      have length := congrArg List.length split
      simp only [same, List.length_append, List.length_cons] at length
      omega

/-- A path to a place that stops walks starts with the walk to the first such place. -/
theorem exists_walk_of_path (stop : α → Bool) {a : α} {l : List α} (path : IsPath step (a :: l))
    (ends : stop ((a :: l).getLast (by simp)) = true) :
    ∃ m, m <+: l ∧ stop ((a :: m).getLast (by simp)) = true ∧
      ∀ n ≥ m.length, IsWalk step stop n a m := by
  induction l generalizing a with
  | nil => exact ⟨[], List.prefix_rfl, ends, fun n _ => isWalk_nil (.inr (.inl ends))⟩
  | cons b l ih =>
    by_cases stopped : stop a = true
    · exact ⟨[], List.nil_prefix, stopped, fun n _ => isWalk_nil (.inr (.inl stopped))⟩
    · obtain ⟨next, rest⟩ := isPath_cons_cons.mp path
      obtain ⟨m, starts, arrived, walked⟩ := ih rest (by simpa using ends)
      refine ⟨b :: m, List.cons_prefix_cons.mpr ⟨rfl, starts⟩, by simpa using arrived, ?_⟩
      intro n enough
      obtain ⟨k, rfl⟩ : ∃ k, n = k + 1 := ⟨n - 1, by simp at enough; omega⟩
      refine isWalk_cons.mpr ⟨Bool.eq_false_iff.mpr stopped, next, walked k ?_⟩
      simpa using enough

/-- A walk that has come to its end is not changed by more steps to spare. -/
theorem walk_eq_of_ended {n m : Nat} {a : α} (le : n ≤ m)
    (ended : stop (walk step stop n a).last = true ∨ step (walk step stop n a).last = none) :
    walk step stop m a = walk step stop n a := by
  obtain ⟨l, walked, list⟩ := walk_isWalk step stop n a
  rw [last_eq_of_isWalk walked] at ended
  have longer : IsWalk step stop m a l :=
    ⟨walked.path, walked.quiet, walked.length_le.trans le, .inr ended⟩
  exact toList_inj ((toList_eq_of_isWalk longer).trans list.symm)

end Restyle.Trail
