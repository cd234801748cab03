import Restyle.Proofs.Lexer.Lossless

/-!
# Which words are reserved

A reserved word after `->` or `?->` is the name of a member. The scan keeps one flag for that, and
`Tracks` says what the flag stands for: the nearest lexeme behind it that is neither whitespace nor a
comment nor a tag.
-/

namespace Restyle

namespace Lexer
variable {limits : Limits} {line : Nat} {afterAccess : Bool} {kind : TokenKind} {x y : Text}

theorem keywords_lower : ∀ word ∈ keywords, word.map Char.toLower = word := by decide

theorem isKeyword_iff : isKeyword x = true ↔ ∃ word ∈ keywords, x.sameIgnoringCase word = true := by
  simp only [isKeyword, List.contains_iff_mem, Text.sameIgnoringCase, beq_iff_eq]
  constructor
  · intro member
    exact ⟨_, member, (keywords_lower _ member).symm⟩
  · rintro ⟨word, member, same⟩
    rw [same, keywords_lower word member]
    exact member

/-- Only the scanner of words gives words, and it goes by the flag and the text. -/
theorem keyword_iff_of_cutCode (nonempty : x ≠ [])
    (cut : cutCode limits line afterAccess (x ++ y) = .ok (kind, x.length))
    (word : kind = .keyword ∨ kind = .identifier) :
    kind = .keyword ↔ isKeyword x = true ∧ afterAccess = false := by
  obtain ⟨c, rest, rfl, code⟩ := codeCut_of_append nonempty cut
  have whole : (c :: (rest ++ y)).take (c :: rest).length = c :: rest := List.take_left
  generalize (c :: rest).length = n at code whole
  cases code with
  | word =>
    simp only [cutWord, whole]
    cases afterAccess <;> simp
  | blockComment => split at word <;> simp at word
  | _ => simp at word

end Lexer

open Lexer

namespace Lexeme

def isWord (l : Lexeme) : Bool := l.hint == .keyword || l.hint == .identifier

/-- Whitespace, comments and tags do not come between `->` and the name of a member. -/
def isGap (l : Lexeme) : Bool :=
  l.hint == .whitespace || l.hint == .comment || l.hint == .docComment || l.hint == .openTag

def isAccess (l : Lexeme) : Bool :=
  l.hint == .operator && (l.text == "->".toList || l.text == "?->".toList)

def nearest? (lexemes : List Lexeme) : Option Lexeme := (lexemes.filter (!·.isGap)).getLast?

variable {ls : List Lexeme} {l : Lexeme}

theorem nearest?_concat : nearest? (ls ++ [l]) = if l.isGap then nearest? ls else some l := by
  unfold nearest?
  rw [List.filter_append]
  split
  · rename_i gap
    simp [gap]
  · rename_i solid
    simp [solid]

/-- A word is reserved if it is one of the list and does not name a member. -/
def Reserved (before : List Lexeme) (l : Lexeme) : Prop :=
  (∃ word ∈ keywords, l.text.sameIgnoringCase word = true) ∧
    ∀ m, nearest? before = some m → m.isAccess = false

end Lexeme

open Lexeme

namespace Scan
variable {limits : Limits} {s s' : Scan} {kind : TokenKind} {t text rest : Text}

/-- The flag of the scan says whether a word that comes next names a member. -/
def Tracks (s : Scan) : Prop := s.afterAccess = (nearest? s.lexemes.toList).any isAccess

theorem lexemes_accept (s : Scan) (kind : TokenKind) (text : Text) :
    (s.accept kind text).lexemes.toList = s.lexemes.toList ++ [⟨kind, text⟩] := by
  simp [Scan.accept]

theorem Tracks.afterAccess_iff (tracks : s.Tracks) :
    s.afterAccess = false ↔ ∀ m, nearest? s.lexemes.toList = some m → m.isAccess = false := by
  rw [tracks]
  cases nearest? s.lexemes.toList <;> simp

/-- Gaps leave the flag alone, and any other lexeme sets it anew. -/
theorem Tracks.accept (tracks : s.Tracks) : (s.accept kind text).Tracks := by
  unfold Tracks
  rw [lexemes_accept, nearest?_concat]
  show accessAfter s.afterAccess kind text = _
  cases kind with
  | whitespace | comment | docComment | openTag => exact tracks
  | operator => rfl
  | _ => rfl

theorem reserved_iff_of_cut (tracks : s.Tracks) (nonempty : text ≠ [])
    (cut : s.cut limits (text ++ rest) = .ok (kind, text.length))
    (word : kind = .keyword ∨ kind = .identifier) :
    kind = .keyword ↔ Reserved s.lexemes.toList ⟨kind, text⟩ := by
  unfold Scan.cut at cut
  split at cut
  · rw [keyword_iff_of_cutCode nonempty cut word, isKeyword_iff, tracks.afterAccess_iff]
    rfl
  · have sort := cutInline_kind (x := text ++ rest)
    rw [Except.ok.inj cut] at sort
    rcases word with rfl | rfl <;> simp at sort

/-- The flag is right at every word, since it is right at the start and each lexeme keeps it so. -/
theorem Lexes.reserved_iff (lexes : Lexes limits s t s') (tracks : s.Tracks) :
    ∃ pieces, s'.lexemes.toList = s.lexemes.toList ++ pieces ∧
      ∀ before l after, pieces = before ++ l :: after → l.isWord = true →
        (l.hint = .keyword ↔ Reserved (s.lexemes.toList ++ before) l) := by
  induction lexes with
  | done => exact ⟨[], by simp, by simp⟩
  | @step s s' kind text rest nonempty cut _ _ ih =>
    obtain ⟨pieces, all, each⟩ := ih tracks.accept
    rw [lexemes_accept, List.append_assoc] at all
    refine ⟨⟨kind, text⟩ :: pieces, all, ?_⟩
    intro before l after split word
    cases before with
    | nil =>
      obtain ⟨rfl, -⟩ := List.cons.inj split
      rw [List.append_nil]
      exact reserved_iff_of_cut tracks nonempty cut (by simpa [isWord] using word)
    | cons m before =>
      obtain ⟨rfl, later⟩ := List.cons.inj split
      have rule := each before l after later word
      rwa [lexemes_accept, List.append_assoc] at rule

/-- A word is a keyword if and only if it is in the list of reserved words and the nearest lexeme
before it, gaps apart, is not `->` or `?->`. -/
theorem keyword_iff_reserved {source : Text} {lexemes before after : List Lexeme} {l : Lexeme}
    (lexed : (ofSource limits source).result = .ok lexemes) (split : lexemes = before ++ l :: after)
    (word : l.isWord = true) : l.hint = .keyword ↔ Reserved before l := by
  obtain ⟨whole, rfl⟩ := result_ok.mp lexed
  have lexes : Lexes limits {} source (ofSource limits source) :=
    lexes_of_run (Nat.le_refl _) whole
  obtain ⟨pieces, all, each⟩ := lexes.reserved_iff rfl
  rw [List.nil_append] at all
  exact each before l after (all ▸ split) word

/-- The name of a member behind a comment and two tags, and a reserved word behind text. -/
theorem keyword_iff_reserved_sections : ∃ lexemes,
    lexemes = [⟨.openTag, "<?php".toList⟩, ⟨.whitespace, [' ']⟩, ⟨.variableName, "$a".toList⟩,
      ⟨.operator, "?->".toList⟩, ⟨.comment, "/**/".toList⟩, ⟨.openTag, "?>".toList⟩,
      ⟨.openTag, "<?=".toList⟩, ⟨.identifier, "class".toList⟩, ⟨.operator, "->".toList⟩,
      ⟨.openTag, "?>".toList⟩, ⟨.inlineText, ['\n']⟩, ⟨.openTag, "<?php".toList⟩,
      ⟨.whitespace, [' ']⟩, ⟨.keyword, "Class".toList⟩] ∧
    (ofSource .development "<?php $a?->/**/?><?=class->?>\n<?php Class".toList).result = .ok lexemes ∧
    ¬ Reserved (lexemes.take 7) ⟨.identifier, "class".toList⟩ ∧
    Reserved (lexemes.take 13) ⟨.keyword, "Class".toList⟩ := by
  have lexed := result_ok.mpr ⟨show (ofSource .development
    "<?php $a?->/**/?><?=class->?>\n<?php Class".toList).failure = none by decide, rfl⟩
  refine ⟨_, by decide, lexed, fun reserved => ?_, ?_⟩
  · have keyword := (keyword_iff_reserved lexed (List.take_append_drop 7 _).symm rfl).mpr reserved
    cases keyword
  · exact (keyword_iff_reserved lexed (List.take_append_drop 13 _).symm rfl).mp rfl

end Scan

end Restyle
