import Restyle.Chain.Line
import Restyle.Proofs.Lexer.Sections

/-!
# Lexemes are as long as they can be

Whitespace, words and operators do not end before something that would go on with them
(`Lexeme.Maximal`). So two whitespace tokens never follow each other in the chain of a source, be
they whitespace between lexemes or blank text between sections.
-/

namespace Restyle

namespace Lexer
variable {limits : Limits} {line : Nat} {afterAccess : Bool} {kind : TokenKind} {x y t : Text}
  {p : Char → Bool}

/-! ### Runs of characters -/

theorem head_of_takeWhile (length : ((x ++ y).takeWhile p).length = x.length) :
    y.head?.any p = false := by
  have inside : ∀ c ∈ x, p c = true := all_of_length length.symm
  rw [List.takeWhile_append_of_pos inside, List.length_append] at length
  cases y with
  | nil => rfl
  | cons d y =>
    rw [List.head?_cons, Option.any_some, Bool.eq_false_iff]
    intro more
    rw [List.takeWhile_cons_of_pos more, List.length_cons] at length
    omega

/-! ### Operators -/

theorem operators_sorted : operators.Pairwise fun a b => b.length ≤ a.length := by decide

/-- The first operator that fits is the longest one, since longer ones come first. -/
theorem length_le_operatorLength {op : Text} (member : op ∈ operators) (starts : op <+: t) :
    op.length ≤ operatorLength t := by
  unfold operatorLength
  have fits : op.isPrefixOf t = true := List.isPrefixOf_iff_prefix.mpr starts
  split
  · rename_i first found
    obtain ⟨-, before, after, split, others⟩ := List.find?_eq_some_iff_append.mp found
    have sorted := operators_sorted
    rw [split] at member sorted
    rcases List.mem_append.mp member with early | late
    · have no := others op early
      rw [fits] at no
      cases no
    · rcases List.mem_cons.mp late with rfl | later
      · omega
      · exact (List.pairwise_cons.mp (List.pairwise_append.mp sorted).2.1).1 op later
  · rename_i none
    exact (List.find?_eq_none.mp none op member fits).elim

theorem operators_short : ∀ op ∈ operators, op.length ≤ 3 ∧ op ≠ "<<<".toList := by decide

theorem length_le_of_shift {op : Text} (starts : "<<<".toList.isPrefixOf t = true)
    (member : op ∈ operators) (fits : op <+: t) : op.length ≤ 2 := by
  obtain ⟨short, other⟩ := operators_short op member
  by_contra long
  have three : op.length = "<<<".toList.length := by
    show op.length = 3
    omega
  refine other (List.IsPrefix.eq_of_length ?_ three)
  exact List.prefix_of_prefix_length_le fits (List.isPrefixOf_iff_prefix.mp starts) (by omega)

/-! ### One lexeme -/

section CutCode
variable (nonempty : x ≠ [])
  (cut : cutCode limits line afterAccess (x ++ y) = .ok (kind, x.length))
include nonempty cut

theorem space_maximal (blank : kind = .whitespace) :
    x.head?.any Text.isSpace = true ∧ y.head?.any Text.isSpace = false := by
  obtain ⟨c, rest, rfl, code⟩ := codeCut_of_append nonempty cut
  generalize length : (c :: rest).length = n at code
  cases code with
  | whitespace space => exact ⟨space, head_of_takeWhile (x := c :: rest) length.symm⟩
  | word => rcases cutWord_kind afterAccess (c :: (rest ++ y)) with same | same <;> simp [same] at blank
  | blockComment => split at blank <;> cases blank
  | _ => cases blank

theorem word_maximal (word : kind = .variableName ∨ kind = .identifier ∨ kind = .keyword) :
    y.head?.any isWordChar = false := by
  obtain ⟨c, rest, rfl, code⟩ := codeCut_of_append nonempty cut
  generalize length : (c :: rest).length = n at code
  cases code with
  | variableName =>
    rw [List.length_cons, Nat.add_right_cancel_iff] at length
    exact head_of_takeWhile length.symm
  | word => exact head_of_takeWhile (x := c :: rest) length.symm
  | blockComment => split at word <;> simp at word
  | _ => simp at word

theorem operator_maximal (operator : kind = .operator) {op : Text} (member : op ∈ operators)
    (fits : op <+: x ++ y) : op.length ≤ x.length := by
  obtain ⟨c, rest, rfl, code⟩ := codeCut_of_append nonempty cut
  generalize length : (c :: rest).length = n at code ⊢
  cases code with
  | shift starts => exact length_le_of_shift starts member fits
  | operator => exact length_le_operatorLength member fits
  | word =>
    rcases cutWord_kind afterAccess (c :: (rest ++ y)) with same | same <;> simp [same] at operator
  | blockComment => split at operator <;> cases operator
  | _ => cases operator

end CutCode

/-- Text that starts with whitespace is cut as whitespace. -/
theorem cutCode_of_space {c : Char} (space : Text.isSpace c = true) :
    cutCode limits line afterAccess (c :: t) =
      .ok (.whitespace, ((c :: t).takeWhile Text.isSpace).length) := by
  rw [cutCode, if_pos space]

end Lexer

open Lexer

namespace Lexeme

/-- The lexeme does not end before something that would go on with it. -/
structure Maximal (l : Lexeme) (after : Text) : Prop where
  space : l.hint = .whitespace → after.head?.any Text.isSpace = false
  word : l.hint = .variableName ∨ l.hint = .identifier ∨ l.hint = .keyword →
    after.head?.any isWordChar = false
  operator : l.hint = .operator → ∀ op ∈ operators, l.text.length < op.length → ¬ op <+: l.text ++ after

variable {l : Lexeme}

theorem isWhitespace_toToken : l.toToken.isWhitespace = true ↔
    Token.isSpaceText l.text = true ∨ l.hint = .whitespace := by
  unfold toToken Token.classify Token.isWhitespace
  dsimp only
  split
  · rename_i blank
    simp [blank]
  · rename_i some
    simp [some]

end Lexeme

theorem Token.head_of_isSpaceText {t : Text} (blank : isSpaceText t = true) :
    t.head?.any Text.isSpace = true := by
  cases t with
  | nil => cases blank
  | cons c t =>
    simp only [isSpaceText, List.all_cons, Bool.and_eq_true] at blank
    exact blank.2.1

namespace Scan
variable {limits : Limits} {s : Scan} {kind : TokenKind} {text rest : Text}

theorem maximal_of_cut (nonempty : text ≠ [])
    (cut : s.cut limits (text ++ rest) = .ok (kind, text.length)) :
    Lexeme.Maximal ⟨kind, text⟩ rest := by
  unfold Scan.cut at cut
  split at cut
  · refine ⟨fun blank => (space_maximal nonempty cut blank).2, word_maximal nonempty cut, ?_⟩
    intro operator op member longer fits
    exact absurd (operator_maximal nonempty cut operator member fits) (Nat.not_le.mpr longer)
  · have sort := cutInline_kind (x := text ++ rest)
    rw [Except.ok.inj cut] at sort
    rcases sort with rfl | rfl <;> constructor <;> simp

/-- What makes a whitespace token starts with whitespace and ends before something else. -/
theorem blank_of_cut (nonempty : text ≠ [])
    (cut : s.cut limits (text ++ rest) = .ok (kind, text.length))
    (blank : (Lexeme.toToken ⟨kind, text⟩).isWhitespace = true) :
    text.head?.any Text.isSpace = true ∧ rest.head?.any Text.isSpace = false := by
  rw [Lexeme.isWhitespace_toToken] at blank
  unfold Scan.cut at cut
  split at cut
  · have isSpace : kind = .whitespace := by
      rcases blank with blank | hint
      · obtain ⟨c, more, rfl⟩ := List.exists_cons_of_ne_nil nonempty
        have space : Text.isSpace c = true := Token.head_of_isSpaceText blank
        rw [List.cons_append, cutCode_of_space space] at cut
        exact (Prod.mk.inj (Except.ok.inj cut)).1.symm
      · exact hint
    exact space_maximal nonempty cut isSpace
  · have inline := Except.ok.inj cut
    have sort := cutInline_kind (x := text ++ rest)
    rw [inline] at sort
    have starts : text.head?.any Text.isSpace = true := by
      rcases blank with blank | rfl
      · exact Token.head_of_isSpaceText blank
      · simp at sort
    refine ⟨starts, ?_⟩
    rcases sort with rfl | rfl
    · -- A tag is not blank.
      obtain ⟨-, tag, rfl⟩ := openTagLength_tag (b := []) nonempty (cutInline_tag.mp inline).1
      exact absurd (show Text.isSpace '<' = true from starts) (by decide)
    · -- Text reaches up to the next tag.
      obtain ⟨-, -, -, ends⟩ := cutInline_text.mp inline
      rw [List.drop_left, List.length_append] at ends
      cases rest with
      | nil => rfl
      | cons d rest =>
        have tag := ends (by simp)
        by_cases first : d = '<'
        · rw [first]
          rfl
        · exact (tag (openTagLength_of_ne first)).elim

end Scan

section Source
variable {limits : Limits} {source : Text} {lexemes : List Lexeme}

theorem Scan.not_blank_of_adjacent (lexed : (ofSource limits source).result = .ok lexemes)
    {before after : List Lexeme} {l m : Lexeme} (split : lexemes = before ++ l :: m :: after)
    (blank : l.toToken.isWhitespace = true) : m.toToken.isWhitespace = false := by
  let P (l : Lexeme) (rest : Text) : Prop := l.text ≠ [] ∧ (l.toToken.isWhitespace = true →
    l.text.head?.any Text.isSpace = true ∧ rest.head?.any Text.isSpace = false)
  have each := ofSource_each (P := P) lexed fun s kind text rest nonempty cut =>
    ⟨nonempty, blank_of_cut nonempty cut⟩
  obtain ⟨-, ends⟩ := (each before l (m :: after) split).2 blank
  obtain ⟨nonempty, starts⟩ := each (before ++ [l]) m after (by simp [split])
  rw [Bool.eq_false_iff]
  intro blank'
  have space := (starts blank').1
  rw [List.flatMap_cons, List.head?_append_of_ne_nil _ nonempty, space] at ends
  cases ends

/-- Lexemes are as long as they can be, and whitespace tokens do not follow each other. -/
theorem maximal_munch (lexed : (Scan.ofSource limits source).result = .ok lexemes) :
    (∀ before l after, lexemes = before ++ l :: after → l.Maximal (after.flatMap (·.text))) ∧
    ∀ profile, limits.validate profile = .ok () →
      ∃ c, Chain.ofLexemes limits.nodes lexemes = .ok c ∧ ∀ a b, c.next? a = some b →
        ¬ (c.isWhitespace a = true ∧ c.isWhitespace b = true) := by
  refine ⟨Scan.ofSource_each lexed fun s kind text rest nonempty cut =>
    Scan.maximal_of_cut nonempty cut, ?_⟩
  intro profile valid
  obtain ⟨narrow, tokens⟩ := Limits.nodes_lt_of_validate valid
  obtain ⟨-, -, bound⟩ := Scan.ofSource_pieces lexed
  obtain ⟨c, last, built, threaded⟩ :=
    Chain.ofLexemes_spec (Nat.le_of_lt narrow) (Nat.le_trans bound tokens)
  refine ⟨c, built, ?_⟩
  intro a b next ⟨blankA, blankB⟩
  have index := threaded.index_of_next? (by rw [List.length_map]; omega) next
  obtain ⟨t, tokenA, spaceA⟩ := Chain.tokenIs_iff.mp blankA
  obtain ⟨u, tokenB, spaceB⟩ := Chain.tokenIs_iff.mp blankB
  rw [threaded.token?, List.getElem?_map, Option.map_eq_some_iff] at tokenA tokenB
  obtain ⟨l, first, rfl⟩ := tokenA
  obtain ⟨m, second, rfl⟩ := tokenB
  rw [index] at second
  have split : lexemes = lexemes.take a.index ++ l :: m :: lexemes.drop (a.index + 1 + 1) := by
    obtain ⟨-, rfl⟩ := List.getElem?_eq_some_iff.mp first
    obtain ⟨-, rfl⟩ := List.getElem?_eq_some_iff.mp second
    rw [List.getElem_cons_drop, List.getElem_cons_drop, List.take_append_drop]
  have seen := Scan.not_blank_of_adjacent lexed split spaceA
  rw [spaceB] at seen
  cases seen

end Source

/-- Two operators where a heredoc could start, and blank text between two sections. -/
theorem maximal_munch_shift : ∃ lexemes c,
    lexemes = [⟨.openTag, "<?php".toList⟩, ⟨.whitespace, [' ']⟩, ⟨.variableName, "$a".toList⟩,
      ⟨.operator, "<<".toList⟩, ⟨.operator, "<=".toList⟩, ⟨.identifier, ['b']⟩,
      ⟨.openTag, "?>".toList⟩, ⟨.inlineText, " \n".toList⟩, ⟨.openTag, "<?=".toList⟩,
      ⟨.whitespace, [' ']⟩, ⟨.identifier, ['c']⟩] ∧
    (Scan.ofSource .development "<?php $a<<<=b?> \n<?= c".toList).result = .ok lexemes ∧
    (∀ before l after, lexemes = before ++ l :: after → l.Maximal (after.flatMap (·.text))) ∧
    Chain.ofLexemes Limits.development.nodes lexemes = .ok c ∧
    ∀ a b, c.next? a = some b → ¬ (c.isWhitespace a = true ∧ c.isWhitespace b = true) := by
  have valid : Limits.development.validate "development" = .ok () := by decide
  have lexed := Scan.result_ok.mpr ⟨show (Scan.ofSource .development
    "<?php $a<<<=b?> \n<?= c".toList).failure = none by decide, rfl⟩
  obtain ⟨maximal, chained⟩ := maximal_munch lexed
  obtain ⟨c, built, apart⟩ := chained _ valid
  exact ⟨_, c, by decide, lexed, maximal, built, apart⟩

end Restyle
