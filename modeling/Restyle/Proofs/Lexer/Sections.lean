import Restyle.Proofs.Lexer.Legible

/-!
# Sections of code

Tags open and close the code sections of a source in turn (`Sectioned`). `Region` says where lexing
stands between two lexemes, and `Region.Step` which lexemes may come there.
-/

namespace Restyle

namespace Lexer
variable {t x y : Text} {n i : Nat}

def IsOpening (t : Text) : Prop := t.sameIgnoringCase "<?php".toList = true ∨ t = "<?=".toList

theorem isOpening_take (tag : openTagLength t ≠ 0) : IsOpening (t.take (openTagLength t)) := by
  unfold openTagLength at tag ⊢
  split
  · rename_i long
    exact .inl long
  · rename_i long
    rw [if_neg long] at tag
    split
    · rename_i short
      obtain ⟨rest, rfl⟩ := List.isPrefixOf_iff_prefix.mp short
      exact .inr rfl
    · rename_i short
      exact (tag (if_neg short)).elim

theorem length_of_sameIgnoringCase (same : x.sameIgnoringCase y = true) : x.length = y.length := by
  have lengths := congrArg List.length (beq_iff_eq.mp same)
  simpa using lengths

theorem openTagLength_ne_zero (tag : IsOpening x) : openTagLength (x ++ y) ≠ 0 := by
  unfold openTagLength
  rcases tag with long | rfl
  · have length : x.length = 5 := length_of_sameIgnoringCase long
    have take : (x ++ y).take 5 = x := by rw [← length, List.take_left]
    rw [take, if_pos long]
    decide
  · split
    · decide
    · have short : "<?=".toList.isPrefixOf ("<?=".toList ++ y) = true :=
        List.isPrefixOf_iff_prefix.mpr (List.prefix_append _ _)
      rw [if_pos short]
      decide

theorem IsOpening.startsTag (tag : IsOpening t) : "<?".toList.isPrefixOf t = true := by
  rcases tag with long | rfl
  · have length : t.length = 5 := length_of_sameIgnoringCase long
    match t, length with
    | [c₁, c₂, c₃, c₄, c₅], _ =>
      have same := beq_iff_eq.mp long
      simp only [List.map_cons] at same
      have first : c₁ = '<' := eq_of_toLower (by decide) (List.cons.inj same).1
      have second : c₂ = '?' := eq_of_toLower (by decide) (List.cons.inj (List.cons.inj same).2).1
      simp [first, second]
  · decide

theorem IsOpening.ne_nil (tag : IsOpening t) : t ≠ [] := by
  rintro rfl
  cases tag.startsTag

def Inline (t : Text) : Prop := ∀ piece, piece <:+: t → ¬ IsOpening piece

theorem inline_take (fits : n ≤ t.length) (none : ∀ i < n, openTagLength (t.drop i) = 0) :
    Inline (t.take n) := by
  rintro piece ⟨left, right, split⟩ opening
  have length := congrArg List.length split
  have positive := List.length_pos_iff.mpr opening.ne_nil
  simp only [List.length_append, List.length_take] at length
  have whole : t = left ++ (piece ++ (right ++ t.drop n)) := by
    rw [← List.append_assoc piece, ← List.append_assoc, ← List.append_assoc, split,
      List.take_append_drop]
  have tag := openTagLength_ne_zero (y := right ++ t.drop n) opening
  have zero := none left.length (by omega)
  rw [whole, List.drop_left] at zero
  exact tag zero

theorem not_inlineText_of_cutCode {limits : Limits} {line : Nat} {afterAccess : Bool} {c : Char}
    {kind : TokenKind} (cut : cutCode limits line afterAccess (c :: t) = .ok (kind, n)) :
    kind ≠ .inlineText ∧ (kind = .openTag → n = 2 ∧ "?>".toList.isPrefixOf (c :: t) = true) := by
  cases codeCut_of_cutCode cut with
  | word =>
    unfold cutWord
    dsimp only
    split <;> simp
  | blockComment => split <;> simp
  | closingTag starts => exact ⟨by simp, fun _ => ⟨rfl, starts⟩⟩
  | _ => simp

end Lexer

open Lexer

namespace Lexeme

def Opens (l : Lexeme) : Prop := l.hint = .openTag ∧ IsOpening l.text

def Closes (l : Lexeme) : Prop := l.hint = .openTag ∧ l.text = "?>".toList

end Lexeme

/-- Tags open and close code sections in turn. Text stands only outside the sections, in one piece,
and all other lexemes stand inside. -/
structure Sectioned (lexemes : List Lexeme) : Prop where
  tags : ∀ i tag, (lexemes.filter (·.hint == .openTag))[i]? = some tag →
    if i % 2 = 0 then tag.Opens else tag.Closes
  text : ∀ before l after, lexemes = before ++ l :: after → l.hint = .inlineText →
    (before = [] ∨ ∃ m ∈ before.getLast?, m.Closes) ∧ (∀ m ∈ after.head?, m.Opens) ∧ Inline l.text
  code : ∀ before l after, lexemes = before ++ l :: after →
    l.hint ≠ .openTag → l.hint ≠ .inlineText →
      ∃ start tag inside, before = start ++ tag :: inside ∧ tag.Opens ∧
        ∀ m ∈ inside, m.hint ≠ .openTag

/-- Where a lexeme can start: in a code section, after text, or else outside the sections. -/
inductive Region where
  | outside
  | text
  | code

namespace Region
variable {p q r : Region} {l : Lexeme} {ls ls' : List Lexeme}

inductive Step : Region → Lexeme → Region → Prop where
  | opening {p : Region} {l : Lexeme} : p ≠ .code → l.Opens → Step p l .code
  | text {l : Lexeme} : l.hint = .inlineText → Inline l.text → Step .outside l .text
  | closing {l : Lexeme} : l.Closes → Step .code l .outside
  | code {l : Lexeme} : l.hint ≠ .openTag → l.hint ≠ .inlineText → Step .code l .code

inductive Steps : Region → List Lexeme → Region → Prop where
  | nil {p : Region} : Steps p [] p
  | cons {p q r : Region} {l : Lexeme} {ls : List Lexeme} :
      Step p l q → Steps q ls r → Steps p (l :: ls) r

theorem Steps.split (steps : Steps p (ls ++ ls') r) : ∃ q, Steps p ls q ∧ Steps q ls' r := by
  induction ls generalizing p with
  | nil => exact ⟨p, .nil, steps⟩
  | cons l ls ih =>
    obtain _ | ⟨step, rest⟩ := steps
    obtain ⟨q, left, right⟩ := ih rest
    exact ⟨q, .cons step left, right⟩

theorem Steps.concat (steps : Steps p (ls ++ [l]) r) : ∃ q, Steps p ls q ∧ Step q l r := by
  obtain ⟨q, left, right⟩ := steps.split
  obtain _ | ⟨step, _ | _⟩ := right
  exact ⟨q, left, step⟩

/-! ### What stands before a place -/

theorem Steps.before_outside (steps : Steps .outside ls .outside) :
    ls = [] ∨ ∃ m ∈ ls.getLast?, m.Closes := by
  rcases List.eq_nil_or_concat' ls with rfl | ⟨start, l, rfl⟩
  · exact .inl rfl
  · obtain ⟨q, -, step⟩ := steps.concat
    cases step with
    | closing closes => exact .inr ⟨l, by simp, closes⟩

theorem Steps.before_code (steps : Steps .outside ls .code) :
    ∃ start tag inside, ls = start ++ tag :: inside ∧ tag.Opens ∧
      ∀ m ∈ inside, m.hint ≠ .openTag := by
  induction ls using List.reverseRecOn with
  | nil => cases steps
  | append_singleton ls l ih =>
    obtain ⟨q, left, step⟩ := steps.concat
    cases step with
    | opening _ opens => exact ⟨ls, l, [], rfl, opens, by simp⟩
    | code noTag _ =>
      obtain ⟨start, tag, inside, rfl, opens, all⟩ := ih left
      refine ⟨start, tag, inside ++ [l], by simp, opens, ?_⟩
      intro m member
      rcases List.mem_append.mp member with old | last
      · exact all m old
      · rwa [List.mem_singleton.mp last]

/-! ### The tags -/

def openTags : Region → Nat
  | .outside => 0
  | .text => 0
  | .code => 1

theorem openTags_of_ne (outside : p ≠ .code) : p.openTags = 0 := by
  cases p with
  | code => exact (outside rfl).elim
  | _ => rfl

theorem Steps.alternate (steps : Steps p ls r) {i : Nat} {tag : Lexeme}
    (found : (ls.filter (·.hint == .openTag))[i]? = some tag) :
    if (p.openTags + i) % 2 = 0 then tag.Opens else tag.Closes := by
  induction steps generalizing i with
  | nil => simp at found
  | @cons p q r l ls step _ ih =>
    by_cases isTag : l.hint = .openTag
    · rw [List.filter_cons_of_pos (by simp [isTag])] at found
      cases step with
      | opening outside opens =>
        rw [openTags_of_ne outside]
        cases i with
        | zero =>
          obtain rfl := Option.some.inj found
          simpa using opens
        | succ i =>
          have rest := ih found
          rwa [openTags, Nat.add_comm 1 i, ← Nat.zero_add (i + 1)] at rest
      | text hint => simp [isTag] at hint
      | closing closes =>
        cases i with
        | zero =>
          obtain rfl := Option.some.inj found
          simpa [openTags] using closes
        | succ i =>
          have rest : if (0 + i) % 2 = 0 then tag.Opens else tag.Closes := ih found
          have parity : (1 + (i + 1)) % 2 = (0 + i) % 2 := by omega
          rwa [← parity] at rest
      | code noTag => exact (noTag isTag).elim
    · rw [List.filter_cons_of_neg (by simp [isTag])] at found
      cases step with
      | opening _ opens => exact (isTag opens.1).elim
      | text => exact ih found
      | closing closes => exact (isTag closes.1).elim
      | code => exact ih found

theorem Steps.sectioned (steps : Steps .outside ls r) : Sectioned ls := by
  refine ⟨fun i tag found => ?_, ?_, ?_⟩
  · have turn := steps.alternate found
    rwa [openTags, Nat.zero_add] at turn
  · rintro before l after rfl hint
    obtain ⟨q, left, right⟩ := steps.split
    obtain _ | ⟨step, rest⟩ := right
    cases step with
    | opening _ opens => simp [opens.1] at hint
    | text _ inline =>
      refine ⟨left.before_outside, fun m first => ?_, inline⟩
      cases rest with
      | nil => simp at first
      | cons next _ =>
        obtain rfl := Option.some.inj first
        cases next with
        | opening _ opens => exact opens
    | closing closes => simp [closes.1] at hint
    | code _ noText => exact (noText hint).elim
  · rintro before l after rfl noTag noText
    obtain ⟨q, left, right⟩ := steps.split
    obtain _ | ⟨step, rest⟩ := right
    cases step with
    | opening _ opens => exact (noTag opens.1).elim
    | text hint => exact (noText hint).elim
    | closing closes => exact (noTag closes.1).elim
    | code => exact left.before_code

end Region

namespace Scan
variable {limits : Limits} {s s' : Scan} {p : Region} {kind : TokenKind} {text rest t : Text}

/-- Lexing stands at the place with the rest `t` of the source. After text the rest starts with a
tag, since text reaches up to the next one. -/
structure At (s : Scan) (t : Text) (p : Region) : Prop where
  inCode : s.inCode = true ↔ p = .code
  tag : p = .text → t ≠ [] → openTagLength t ≠ 0

theorem At.of_ne_text (notText : p ≠ .text) (inCode : s.inCode = true ↔ p = .code) : s.At t p :=
  ⟨inCode, fun isText => (notText isText).elim⟩

theorem At.of_inside (inside : s.inCode = true) (nonempty : text ≠ [])
    (cut : cutCode limits s.line s.afterAccess (text ++ rest) = .ok (kind, text.length)) :
    ∃ q, Region.code.Step ⟨kind, text⟩ q ∧ (s.accept kind text).At rest q := by
  obtain ⟨c, tail, rfl⟩ := List.exists_cons_of_ne_nil nonempty
  obtain ⟨noText, closing⟩ := not_inlineText_of_cutCode cut
  by_cases tag : kind = .openTag
  · obtain ⟨length, starts⟩ := closing tag
    obtain ⟨after, whole⟩ := List.isPrefixOf_iff_prefix.mp starts
    have text : "?>".toList = c :: tail := List.append_inj_left whole length.symm
    refine ⟨.outside, .closing ⟨tag, text.symm⟩, .of_ne_text (by simp) ?_⟩
    rw [tag, ← text]
    simp [accept, inCodeAfter]
  · refine ⟨.code, .code tag noText, .of_ne_text (by simp) ?_⟩
    have same : inCodeAfter s.inCode kind (c :: tail) = s.inCode := by
      cases kind with
      | openTag => exact (tag rfl).elim
      | _ => rfl
    rw [accept, same]
    simp [inside]

theorem At.of_outside (here : s.At (text ++ rest) p) (outside : ¬ s.inCode = true)
    (nonempty : text ≠ []) (cut : cutInline (text ++ rest) = (kind, text.length)) :
    ∃ q, p.Step ⟨kind, text⟩ q ∧ (s.accept kind text).At rest q := by
  have notCode : p ≠ .code := fun same => outside (here.inCode.mpr same)
  have sort : kind = .openTag ∨ kind = .inlineText := by
    have sorts := cutInline_kind (x := text ++ rest)
    rwa [cut] at sorts
  rcases sort with rfl | rfl
  · obtain ⟨length, positive⟩ := cutInline_tag.mp cut
    have opening := isOpening_take (t := text ++ rest) (by rwa [length])
    rw [length, List.take_left] at opening
    refine ⟨.code, .opening notCode ⟨rfl, opening⟩, .of_ne_text (by simp) ?_⟩
    rw [accept, inCodeAfter, opening.startsTag]
    simp
  · obtain ⟨fits, noTag, clean, next⟩ := cutInline_text.mp cut
    have fresh : p = .outside := by
      cases p with
      | outside => rfl
      | text => exact (here.tag rfl (by simp [nonempty]) noTag).elim
      | code => exact (notCode rfl).elim
    subst fresh
    have inline := inline_take fits clean
    rw [List.take_left] at inline
    refine ⟨.text, .text rfl inline, ⟨?_, fun _ more => ?_⟩⟩
    · simp [accept, inCodeAfter, outside]
    · have length := List.length_pos_iff.mpr more
      rw [List.drop_left] at next
      exact next (by rw [List.length_append]; omega)

theorem At.step (here : s.At (text ++ rest) p) (nonempty : text ≠ [])
    (cut : s.cut limits (text ++ rest) = .ok (kind, text.length)) :
    ∃ q, p.Step ⟨kind, text⟩ q ∧ (s.accept kind text).At rest q := by
  unfold Scan.cut at cut
  split at cut
  · rename_i inside
    obtain rfl := here.inCode.mp inside
    exact At.of_inside inside nonempty cut
  · rename_i outside
    exact here.of_outside outside nonempty (Except.ok.inj cut)

theorem Lexes.steps (lexes : Lexes limits s t s') (here : s.At t p) :
    ∃ pieces q, s'.lexemes.toList = s.lexemes.toList ++ pieces ∧ p.Steps pieces q := by
  induction lexes generalizing p with
  | done => exact ⟨[], p, by simp, .nil⟩
  | @step s s' kind text rest nonempty cut _ _ ih =>
    obtain ⟨q, step, next⟩ := here.step nonempty cut
    obtain ⟨pieces, r, all, steps⟩ := ih next
    exact ⟨⟨kind, text⟩ :: pieces, r, by simp [all, accept], .cons step steps⟩

/-- Every source that can be lexed falls into sections. -/
theorem sectioned_of_lexed {source : Text} {lexemes : List Lexeme}
    (lexed : (ofSource limits source).result = .ok lexemes) : Sectioned lexemes := by
  obtain ⟨whole, rfl⟩ := result_ok.mp lexed
  have lexes : Lexes limits {} source (ofSource limits source) :=
    lexes_of_run (Nat.le_refl _) whole
  obtain ⟨pieces, r, all, steps⟩ := lexes.steps (p := .outside) (.of_ne_text (by simp) (by simp))
  rw [List.nil_append] at all
  rw [all]
  exact steps.sectioned

/-- Tags in strings and in block comments do not count, and those in line comments do. -/
theorem sectioned_of_lexed_mixed : ∃ lexemes,
    lexemes = [⟨.inlineText, "a<? ".toList⟩, ⟨.openTag, "<?PHP".toList⟩, ⟨.whitespace, [' ']⟩,
      ⟨.stringLiteral, "'?>'".toList⟩, ⟨.whitespace, [' ']⟩, ⟨.comment, "/*?>*/".toList⟩,
      ⟨.whitespace, [' ']⟩, ⟨.comment, "# b ".toList⟩, ⟨.openTag, "?>".toList⟩,
      ⟨.inlineText, ['c']⟩, ⟨.openTag, "<?=".toList⟩, ⟨.numberLiteral, ['1']⟩] ∧
    (ofSource .development "a<? <?PHP '?>' /*?>*/ # b ?>c<?=1".toList).result = .ok lexemes ∧
    Sectioned lexemes := by
  have lexed := result_ok.mpr ⟨show (ofSource .development
    "a<? <?PHP '?>' /*?>*/ # b ?>c<?=1".toList).failure = none by decide, rfl⟩
  exact ⟨_, by decide, lexed, sectioned_of_lexed lexed⟩

end Scan

end Restyle
