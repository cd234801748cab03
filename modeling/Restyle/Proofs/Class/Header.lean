import Restyle.ClassDecl
import Restyle.Proofs.Chain.Line
import Restyle.Proofs.Group.Parse

/-!
# Class headers

What comes around the word `class`, seen in the run of nodes it stands in: the node before it that
decides whether it declares something, and the nodes after it up to the first mark that ends a
header (`header_of_split`).
-/

namespace Restyle
open Trail (IsPath)
open Outcome

namespace Chain
variable {c : Chain} {k r id b : NodeId} {before after spaces : List NodeId}

/-! ### The visible nodes of a run -/

def visible (c : Chain) (l : List NodeId) : List NodeId := l.filter fun x => !c.isWhitespace x

theorem all_spaces_or_split (c : Chain) (l : List NodeId) :
    (∀ x ∈ l, c.isWhitespace x = true) ∨ ∃ spaces r rest, l = spaces ++ r :: rest ∧
      (∀ x ∈ spaces, c.isWhitespace x = true) ∧ c.isWhitespace r = false := by
  induction l with
  | nil => simp
  | cons x l ih =>
    cases space : c.isWhitespace x with
    | false => exact .inr ⟨[], x, l, rfl, by simp, space⟩
    | true =>
      rcases ih with all | ⟨spaces, r, rest, rfl, all, seen⟩
      · exact .inl (by simpa [space] using all)
      · exact .inr ⟨x :: spaces, r, rest, rfl, by simpa [space] using all, seen⟩

theorem visible_of_spaces {l : List NodeId} (space : ∀ x ∈ l, c.isWhitespace x = true) :
    c.visible l = [] := by
  simpa [visible, List.filter_eq_nil_iff] using space

theorem visible_of_split {rest : List NodeId} (space : ∀ x ∈ spaces, c.isWhitespace x = true)
    (seen : c.isWhitespace r = false) :
    c.visible (spaces ++ r :: rest) = r :: c.visible rest := by
  have none := visible_of_spaces space
  simp only [visible] at none ⊢
  simp [none, seen]

@[simp] theorem visible_append {l m : List NodeId} : c.visible (l ++ m) = c.visible l ++ c.visible m := by
  simp [visible]

theorem length_visible_le (c : Chain) (l : List NodeId) : (c.visible l).length ≤ l.length :=
  List.length_filter_le _ l

theorem mem_visible {l : List NodeId} : id ∈ c.visible l ↔ id ∈ l ∧ c.isWhitespace id = false := by
  simp [visible]

/-- The visible nodes after a node, found one after another. -/
theorem WellFormed.path_visible (wf : c.WellFormed) (known : c.Known k)
    (run : c.IsRun (before ++ k :: after)) :
    IsPath (fun id => (c.nextVisible id).toOption) (k :: c.visible after) ∧
      (c.nextVisible ((c.visible after).getLastD k)).toOption = none := by
  induction h : after.length using Nat.strong_induction_on generalizing before k after with
  | _ n ih =>
    rcases all_spaces_or_split c after with space | ⟨spaces, r, rest, rfl, space, seen⟩
    · obtain ⟨x, side, failed⟩ := wf.nextVisible_error known run space
      rw [visible_of_spaces space]
      exact ⟨by simp, by simp [failed, Except.toOption]⟩
    · have found := wf.nextVisible_ok run space seen
      have further : c.IsRun ((before ++ k :: spaces) ++ r :: rest) := by simpa using run
      have knownNext := wf.path_known_of_mem run.path (a := k) (by simp) known r (by simp)
      obtain ⟨path, stuck⟩ := ih rest.length
        (by simp only [← h, List.length_append, List.length_cons]; omega) knownNext further rfl
      rw [visible_of_split space seen, List.getLastD_cons]
      exact ⟨Trail.isPath_cons_cons.mpr ⟨by simp [found, Except.toOption], path⟩, stuck⟩

theorem isWhitespace_of_endsHeader (ends : c.tokenIs ClassDecl.endsHeader id = true) :
    c.isWhitespace id = false := by
  obtain ⟨t, token, ends⟩ := tokenIs_iff.mp ends
  simp only [ClassDecl.endsHeader, Token.isPunctuation, Bool.or_eq_true, Bool.and_eq_true,
    beq_iff_eq] at ends
  have mark : t.kind = .punctuation := by
    rcases ends with (ends | ends) | ends <;> exact ends.1
  simp [isWhitespace, tokenIs_of_token? token, Token.isWhitespace, mark]

end Chain

namespace ClassDecl
variable {c : Chain} {k b : NodeId} {before after header rest : List NodeId}

/-! ### The header -/

section Header
variable (wf : c.WellFormed) (known : c.Known k) (keyword : c.tokenIs endsHeader k = false)
  (quiet : ∀ x ∈ header, c.tokenIs endsHeader x = false)
include wf known keyword quiet

/-- The header goes up to the first mark that ends one. -/
theorem header_of_split (run : c.IsRun (before ++ k :: (header ++ b :: rest)))
    (ends : c.tokenIs endsHeader b = true) :
    (ClassDecl.header c k).toList = k :: (c.visible header ++ [b]) := by
  obtain ⟨path, -⟩ := wf.path_visible known run
  have seen := Chain.isWhitespace_of_endsHeader ends
  have split : c.visible (b :: rest) = b :: c.visible rest := by simp [Chain.visible, seen]
  rw [Chain.visible_append, split] at path
  have bound := wf.path_length_le run.path (a := k) (by simp) known
  have shorter := c.length_visible_le header
  simp only [List.length_append, List.length_cons] at bound
  refine Trail.toList_eq_of_isWalk ⟨?_, ?_, ?_, .inr (.inl ?_)⟩
  · have whole : IsPath (fun id => (c.nextVisible id).toOption)
        ((k :: (c.visible header ++ [b])) ++ c.visible rest) := by simpa using path
    exact whole.left
  · rw [← List.cons_append, List.dropLast_concat]
    intro x member
    rcases List.mem_cons.mp member with rfl | member
    · exact keyword
    · exact quiet x (Chain.mem_visible.mp member).1
  · simp only [List.length_append, List.length_cons, List.length_nil]
    omega
  · simpa using ends

/-- Without such a mark it goes on to the end of the run. -/
theorem header_of_quiet (run : c.IsRun (before ++ k :: header)) :
    (ClassDecl.header c k).toList = k :: c.visible header := by
  obtain ⟨path, stuck⟩ := wf.path_visible known run
  have bound := wf.path_length_le run.path (a := k) (by simp) known
  have shorter := c.length_visible_le header
  simp only [List.length_append, List.length_cons] at bound
  refine Trail.toList_eq_of_isWalk (Trail.isWalk_of_path path ?_ (by omega) ?_)
  · intro x member
    rcases List.mem_cons.mp (List.dropLast_subset _ member) with rfl | member
    · exact keyword
    · exact quiet x (Chain.mem_visible.mp member).1
  · have last : (k :: c.visible header).getLast (by simp) = (c.visible header).getLastD k := by
      cases c.visible header <;> simp [List.getLastD_eq_getLast?, List.getLast?_eq_some_getLast]
    rw [last]
    exact stuck

end Header

/-! ### What comes before the keyword -/

def declaredAfter (c : Chain) (before : List NodeId) : Bool :=
  match (c.visible before).getLast? with
  | some r => !c.tokenIs (fun t => t.isOperator "::" || t.isKeyword "new") r
  | none => true

theorem isDeclared_eq (wf : c.WellFormed) (known : c.Known k) (run : c.IsRun (before ++ k :: after)) :
    isDeclared c k = .ok (declaredAfter c before) := by
  rcases Chain.all_spaces_or_split c before.reverse with space | ⟨spaces, r, rest, same, space, seen⟩
  · have space : ∀ x ∈ before, c.isWhitespace x = true := by simpa using space
    obtain ⟨x, side, failed⟩ := wf.previousVisible_error known run space
    simp [isDeclared, failed, declaredAfter, Chain.visible_of_spaces space]
  · obtain rfl : before = rest.reverse ++ r :: spaces.reverse := by
      rw [← List.reverse_reverse before, same]
      simp
    have space : ∀ x ∈ spaces.reverse, c.isWhitespace x = true := by simpa using space
    have found : c.previousVisible k = .ok r :=
      wf.previousVisible_ok (by simpa using run) space seen
    have last : c.visible (r :: spaces.reverse) = [r] := by
      have none := Chain.visible_of_spaces space
      simp only [Chain.visible] at none ⊢
      simp [none, seen]
    simp [isDeclared, found, declaredAfter, last]

end ClassDecl

end Restyle
