import Restyle.Proofs.Class.Swap
import Restyle.Proofs.Lexer.Lossless

/-!
# Anonymous classes and class constants

In `new class` and `A::class` the word `class` declares nothing. The node before it that decides
this is the nearest one that is not whitespace, so a comment hides the `new` or the `::` behind it.
`declared_of_source` says which words are taken for declarations.
-/

namespace Restyle
open Outcome

/-- The word `class` after these belongs to an expression. -/
def Token.takesClass (t : Token) : Bool := t.isOperator "::" || t.isKeyword "new"

theorem Token.isComment_of_takesClass {t : Token} (takes : t.takesClass = true) :
    t.isComment = false := by
  simp only [takesClass, isOperator, isKeyword, Bool.or_eq_true, Bool.and_eq_true,
    beq_iff_eq] at takes
  rcases takes with ⟨kind, -⟩ | ⟨kind, -⟩ <;> simp [isComment, kind]

namespace Chain
variable {c : Chain} {l : List NodeId}

def significant (c : Chain) (l : List NodeId) : List NodeId :=
  l.filter (c.tokenIs Token.isSignificant)

theorem significant_visible : c.significant (c.visible l) = c.significant l := by
  unfold significant visible
  rw [List.filter_filter]
  congr 1
  funext x
  cases is : c.tokenIs Token.isSignificant x with
  | false => rfl
  | true =>
    obtain ⟨t, token, is⟩ := tokenIs_iff.mp is
    simp only [Token.isSignificant, Bool.and_eq_true] at is
    simpa [isWhitespace, tokenIs_of_token? token] using is.1

end Chain

namespace ClassDecl
variable {c : Chain} {ds : List ClassDecl} {k : NodeId} {before after : List NodeId}

/-! ### The nodes around the keyword -/

/-- The nearest significant node is `new` or `::`. -/
def inExpression (c : Chain) (before : List NodeId) : Bool :=
  (c.significant before).getLast?.any (c.tokenIs Token.takesClass)

/-- The nearest node that is not whitespace is a comment. -/
def afterComment (c : Chain) (before : List NodeId) : Bool :=
  (c.visible before).getLast?.any (c.tokenIs Token.isComment)

/-- The first mark that ends a header is an opening brace. -/
def opensBody (c : Chain) (after : List NodeId) : Bool :=
  (after.find? (c.tokenIs endsHeader)).any (c.tokenIs (·.isPunctuation '{'))

theorem declaredAfter_eq : declaredAfter c before =
    !(c.visible before).getLast?.any (c.tokenIs Token.takesClass) := by
  unfold declaredAfter
  cases (c.visible before).getLast? <;> rfl

/-- Only a comment can come between the two ways to look back. -/
theorem declaredAfter_iff (known : ∀ x ∈ before, c.Known x) : declaredAfter c before = true ↔
    (inExpression c before = true → afterComment c before = true) := by
  rw [declaredAfter_eq, inExpression, afterComment, ← Chain.significant_visible]
  cases nearest : (c.visible before).getLast? with
  | none => simp [List.getLast?_eq_none_iff.mp nearest, Chain.significant]
  | some r =>
    obtain ⟨l, split⟩ := List.getLast?_eq_some_iff.mp nearest
    obtain ⟨member, seen⟩ := Chain.mem_visible.mp (List.mem_of_getLast? nearest)
    obtain ⟨node, found⟩ := known r member
    have token : c.token? r = some node.token := by simp [Chain.token?, found]
    simp only [Chain.isWhitespace, Chain.tokenIs_of_token? token] at seen
    simp only [Option.any_some, Chain.tokenIs_of_token? token]
    cases comment : node.token.isComment with
    | true =>
      have harmless : node.token.takesClass = false := by
        rw [Bool.eq_false_iff]
        intro takes
        simp [Token.isComment_of_takesClass takes] at comment
      simp [harmless]
    | false =>
      have last : (c.significant (c.visible before)).getLast? = some r := by
        simp [split, Chain.significant, Chain.tokenIs_of_token? token, Token.isSignificant, seen,
          comment]
      simp [last, Chain.tokenIs_of_token? token]

theorem exists_headerAt_iff (order : c.order = before ++ k :: after) :
    (∃ header b rest, HeaderAt c before k header b rest) ↔
      c.tokenIs (·.isKeyword "class") k = true ∧ opensBody c after = true ∧
        declaredAfter c before = true := by
  constructor
  · rintro ⟨header, b, rest, at'⟩
    have same : after = header ++ b :: rest := by
      have both := order.symm.trans at'.order
      exact (List.cons.inj (List.append_cancel_left both)).2
    exact ⟨at'.keyword, by simp [opensBody, same, at'.find?_endsHeader, at'.brace], at'.declared⟩
  · rintro ⟨keyword, opens, declared⟩
    obtain ⟨b, first, brace⟩ := (Option.any_eq_true ..).mp opens
    obtain ⟨-, header, rest, rfl, quiet⟩ := List.find?_eq_some_iff_append.mp first
    exact ⟨header, b, rest, order, keyword, declared, by simpa using quiet, brace⟩

/-! ### The words taken for declarations -/

theorem mem_keywords_iff (wf : c.WellFormed) (ok : all c = .ok ds)
    (order : c.order = before ++ k :: after) : k ∈ ds.map (·.keyword) ↔
      ∃ header b rest, HeaderAt c before k header b rest := by
  rw [List.mem_map]
  constructor
  · rintro ⟨d, member, rfl⟩
    obtain ⟨before', k, header, b, inside, e, rest, at', rfl⟩ := (mem_all wf ok).mp member
    obtain ⟨rfl, -⟩ := split_unique wf.order_nodup order at'.order
    exact ⟨header, b, _, at'.headerAt⟩
  · rintro ⟨header, b, rest, at'⟩
    obtain ⟨inside, e, tail, found⟩ := at'.classAt_of_all wf ok
    exact ⟨_, (mem_all wf ok).mpr ⟨before, k, header, b, inside, e, tail, found, rfl⟩, rfl⟩

/-- A word `class` with a body is taken for a declaration, unless it belongs to an expression and
no comment comes right before it. -/
theorem declared_of_source {profile : String} {limits : Limits} {source : Text}
    (valid : limits.validate profile = .ok ()) (read : Chain.ofSource? limits source = some c)
    (ok : all c = .ok ds) :
    (∀ d ∈ ds, d.keyword ∈ c.order) ∧
    ∀ before k after, c.order = before ++ k :: after →
      (k ∈ ds.map (·.keyword) ↔
        c.tokenIs (·.isKeyword "class") k = true ∧ opensBody c after = true ∧
          (inExpression c before = true → afterComment c before = true)) := by
  obtain ⟨_, _, -, -, -, threaded⟩ := Chain.exists_threaded valid read
  have wf := threaded.wellFormed
  refine ⟨fun d member => (keywords_sublist wf ok).subset (List.mem_map_of_mem member), ?_⟩
  intro before k after order
  have known : ∀ x ∈ before, c.Known x := by
    intro x member
    exact wf.known_of_mem_order (by simp [order, member])
  rw [mem_keywords_iff wf ok order, exists_headerAt_iff order, declaredAfter_iff known]

/-- The first of these two anonymous classes is taken for a declaration. -/
theorem declared_of_source_anonymous : ∃ c ds before k after before' k' after',
    Chain.ofSource? .development "<?php new/**/class{};new class{};".toList = some c ∧
    all c = .ok ds ∧
    (c.order = before ++ k :: after ∧ inExpression c before = true ∧ k ∈ ds.map (·.keyword)) ∧
    c.order = before' ++ k' :: after' ∧ c.tokenIs (·.isKeyword "class") k' = true ∧
      opensBody c after' = true ∧ k' ∉ ds.map (·.keyword) := by
  have valid : Limits.development.validate "development" = .ok () := by decide
  have checked : (Chain.ofSource? .development "<?php new/**/class{};new class{};".toList).any
      (fun c => (all c).toOption.isSome && [4, 10].all fun place =>
        (c.order.drop place).head?.any (c.tokenIs (·.isKeyword "class")) &&
          opensBody c (c.order.drop (place + 1)) && inExpression c (c.order.take place) &&
          afterComment c (c.order.take place) == (place == 4)) = true := by decide +kernel
  obtain ⟨c, read, checked⟩ := (Option.any_eq_true ..).mp checked
  obtain ⟨found, places⟩ := Bool.and_eq_true_iff.mp checked
  obtain ⟨ds, found⟩ := Option.isSome_iff_exists.mp found
  have ok : all c = .ok ds := toOption_some.mp found
  obtain ⟨-, declared⟩ := declared_of_source valid read ok
  have around : ∀ place ∈ [4, 10], ∃ k after, c.order = c.order.take place ++ k :: after ∧
      c.tokenIs (·.isKeyword "class") k = true ∧ opensBody c after = true ∧
      inExpression c (c.order.take place) = true ∧
      afterComment c (c.order.take place) = (place == 4) := by
    intro place member
    have at' := List.all_eq_true.mp places place member
    rw [← List.tail_drop] at at'
    cases rest : c.order.drop place with
    | nil => simp [rest] at at'
    | cons k after =>
      simp only [rest, List.head?_cons, List.tail_cons, Option.any_some, Bool.and_eq_true,
        beq_iff_eq] at at'
      obtain ⟨⟨⟨keyword, opens⟩, expression⟩, comment⟩ := at'
      have order := (List.take_append_drop place c.order).symm
      rw [rest] at order
      exact ⟨k, after, order, keyword, opens, expression, comment⟩
  obtain ⟨k, after, order, keyword, opens, expression, comment⟩ := around 4 (by simp)
  obtain ⟨k', after', order', keyword', opens', expression', bare⟩ := around 10 (by simp)
  refine ⟨c, ds, _, k, after, _, k', after', read, ok, ⟨order, expression, ?_⟩, order', keyword',
    opens', ?_⟩
  · exact (declared _ k after order).mpr ⟨keyword, opens, fun _ => comment⟩
  · intro member
    have hidden := ((declared _ k' after' order').mp member).2.2 expression'
    simp [bare] at hidden

end ClassDecl

end Restyle
