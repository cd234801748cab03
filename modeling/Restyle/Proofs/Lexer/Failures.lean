import Restyle.Proofs.Lexer.Literals
import Restyle.Proofs.Lexer.Lossless

/-!
# Where lexing stops

Lexing stops at the first string or comment that is not closed or is too large, or when there are
too many lexemes (`Fault`). The lexemes accepted up to there make up the source before that place,
so the line of an error is the line on which the fault starts.
-/

namespace Restyle

namespace Lexer
variable {limits : Limits} {count line n : Nat} {c : Char} {t x y rest : Text} {e : LexError}

def IsString (t after : Text) : Prop :=
  (∃ quote, (quote = '\'' ∨ quote = '"') ∧ Quoted.IsString quote t) ∨ Heredoc.IsString t after

def IsComment (t after : Text) : Prop := Comment.IsLine t after ∨ Comment.IsBlock t

/-- Why no lexeme is taken from a text that starts on this line, after this many lexemes. -/
inductive Fault (limits : Limits) (count line : Nat) (t : Text) : LexError → Prop where
  | openQuote {quote : Char} : quote = '\'' ∨ quote = '"' → t.head? = some quote →
      (∀ x, x <+: t → ¬ Quoted.IsString quote x) → Fault limits count line t (.openString line)
  | openHeredoc : Heredoc.Unclosed t → Fault limits count line t (.openString line)
  | openComment : "/*".toList <+: t → ¬ "*/".toList <:+: t.drop 2 →
      Fault limits count line t (.openComment line)
  | longComment {x y : Text} : t = x ++ y → IsComment x y → limits.commentBytes < Text.byteSize x →
      Fault limits count line t (.commentLimit (Text.byteSize x) limits.commentBytes)
  | largeString {x y : Text} : t = x ++ y → IsString x y → limits.stringBytes < Text.byteSize x →
      Fault limits count line t (.stringLimit (Text.byteSize x) limits.stringBytes)
  | tokenLimit : count = limits.tokens →
      Fault limits count line t (.tokenLimit (limits.tokens + 1) limits.tokens)

/-! ### One lexeme -/

theorem cutString_error : cutString limits t n = .error e ↔
    limits.stringBytes < Text.byteSize (t.take n) ∧
      e = .stringLimit (Text.byteSize (t.take n)) limits.stringBytes := by
  simp only [cutString]
  split <;> simp [eq_comm] <;> omega

theorem cutComment_error {kind : TokenKind} : cutComment limits kind t n = .error e ↔
    limits.commentBytes < Text.byteSize (t.take n) ∧
      e = .commentLimit (Text.byteSize (t.take n)) limits.commentBytes := by
  simp only [cutComment]
  split <;> simp [eq_comm] <;> omega

theorem fault_of_cutString (string : IsString x y)
    (failed : cutString limits (x ++ y) x.length = .error e) :
    Fault limits count line (x ++ y) e := by
  obtain ⟨larger, rfl⟩ := cutString_error.mp failed
  rw [List.take_left] at larger ⊢
  exact .largeString rfl string larger

theorem fault_of_cutComment {kind : TokenKind} (comment : IsComment x y)
    (failed : cutComment limits kind (x ++ y) x.length = .error e) :
    Fault limits count line (x ++ y) e := by
  obtain ⟨larger, rfl⟩ := cutComment_error.mp failed
  rw [List.take_left] at larger ⊢
  exact .longComment rfl comment larger

theorem fault_of_cutQuoted (quote : c = '\'' ∨ c = '"')
    (failed : cutQuoted limits line c (c :: rest) = .error e) :
    Fault limits count line (c :: rest) e := by
  unfold cutQuoted at failed
  split at failed
  · rename_i n found
    obtain ⟨x, y, split, rfl, string⟩ := Quoted.isString_of_length? found
    rw [split] at failed ⊢
    exact fault_of_cutString (.inl ⟨c, quote, string⟩) failed
  · rename_i missing
    obtain rfl := Except.error.inj failed
    have other : c ≠ '\\' := by
      rcases quote with rfl | rfl <;> decide
    exact .openQuote quote rfl fun x starts => Quoted.not_isString_of_length? other missing starts

theorem fault_of_cutBlockComment (opens : "/*".toList.isPrefixOf t = true)
    (failed : cutBlockComment limits line t = .error e) : Fault limits count line t e := by
  unfold cutBlockComment at failed
  split at failed
  · rename_i n found
    obtain ⟨x, y, rfl, rfl, block⟩ := Comment.isBlock_of_blockLength? opens found
    exact fault_of_cutComment (.inr block) failed
  · rename_i missing
    obtain rfl := Except.error.inj failed
    exact .openComment (List.isPrefixOf_iff_prefix.mp opens)
      (Comment.not_infix_of_blockLength? missing)

theorem fault_of_cutHeredoc (opens : "<<<".toList.isPrefixOf t = true)
    (failed : cutHeredoc limits line t = .error e) : Fault limits count line t e := by
  unfold cutHeredoc at failed
  split at failed
  · cases failed
  · rename_i header headed
    split at failed
    · rename_i n found
      obtain ⟨x, y, rfl, rfl, string⟩ := Heredoc.isString_of_length? opens headed found
      exact fault_of_cutString (.inr string) failed
    · rename_i missing
      obtain rfl := Except.error.inj failed
      exact .openHeredoc (Heredoc.unclosed_of_length? opens headed missing)

theorem fault_of_lineComment {kind : TokenKind}
    (opens : c = '#' ∨ "//".toList.isPrefixOf (c :: rest) = true)
    (single : "#[".toList.isPrefixOf (c :: rest) ≠ true)
    (failed : cutComment limits kind (c :: rest) (Comment.lineLength (c :: rest)) = .error e) :
    Fault limits count line (c :: rest) e := by
  have marked : "//".toList <+: c :: rest ∨ "#".toList <+: c :: rest ∧ ¬ "#[".toList <+: c :: rest := by
    rcases opens with rfl | slashes
    · exact .inr ⟨⟨rest, rfl⟩, fun bracket => single (List.isPrefixOf_iff_prefix.mpr bracket)⟩
    · exact .inl (List.isPrefixOf_iff_prefix.mp slashes)
  obtain ⟨x, y, split, length, isLine⟩ := Comment.isLine_of_lineLength marked
  rw [← length, split] at failed
  rw [split]
  exact fault_of_cutComment (.inl isLine) failed

theorem fault_of_cutCode {afterAccess : Bool}
    (failed : cutCode limits line afterAccess (c :: rest) = .error e) :
    Fault limits count line (c :: rest) e := by
  -- Only the scanners of strings and comments can fail.
  rw [cutCode] at failed
  rcases ite_eq_iff.mp failed with ⟨-, failed⟩ | ⟨-, failed⟩
  · cases failed
  rcases ite_eq_iff.mp failed with ⟨-, failed⟩ | ⟨-, failed⟩
  · cases failed
  rcases ite_eq_iff.mp failed with ⟨-, failed⟩ | ⟨-, failed⟩
  · cases failed
  rcases ite_eq_iff.mp failed with ⟨-, failed⟩ | ⟨-, failed⟩
  · cases failed
  rcases ite_eq_iff.mp failed with ⟨quote, failed⟩ | ⟨-, failed⟩
  · exact fault_of_cutQuoted (by simpa using quote) failed
  rcases ite_eq_iff.mp failed with ⟨-, failed⟩ | ⟨single, failed⟩
  · cases failed
  rcases ite_eq_iff.mp failed with ⟨opens, failed⟩ | ⟨-, failed⟩
  · simp only [Bool.or_eq_true, beq_iff_eq] at opens
    exact fault_of_lineComment opens single failed
  rcases ite_eq_iff.mp failed with ⟨opens, failed⟩ | ⟨-, failed⟩
  · exact fault_of_cutBlockComment opens failed
  rcases ite_eq_iff.mp failed with ⟨-, failed⟩ | ⟨-, failed⟩
  · cases failed
  rcases ite_eq_iff.mp failed with ⟨opens, failed⟩ | ⟨-, failed⟩
  · exact fault_of_cutHeredoc opens failed
  rcases ite_eq_iff.mp failed with ⟨-, failed⟩ | ⟨-, failed⟩
  · cases failed
  rcases ite_eq_iff.mp failed with ⟨-, failed⟩ | ⟨-, failed⟩
  · cases failed
  · cases failed

end Lexer

open Lexer

structure Lexeme.Within (limits : Limits) (l : Lexeme) : Prop where
  comment : l.hint = .comment ∨ l.hint = .docComment → Text.byteSize l.text ≤ limits.commentBytes
  string : l.hint = .stringLiteral → Text.byteSize l.text ≤ limits.stringBytes

namespace Scan
variable {limits : Limits} {s s' : Scan} {t text rest left : Text} {kind : TokenKind} {fuel : Nat}
  {e : LexError}

theorem within_of_cut (nonempty : text ≠ [])
    (cut : s.cut limits (text ++ rest) = .ok (kind, text.length)) :
    Lexeme.Within limits ⟨kind, text⟩ := by
  unfold Scan.cut at cut
  split at cut
  · obtain ⟨c, more, rfl, code⟩ := codeCut_of_append nonempty cut
    have whole : (c :: (more ++ rest)).take (c :: more).length = c :: more := List.take_left
    generalize (c :: more).length = n at code whole
    cases code with
    | quoted _ _ fits | heredoc _ _ fits =>
      rw [whole] at fits
      exact ⟨by simp, fun _ => fits⟩
    | lineComment _ fits =>
      rw [whole] at fits
      exact ⟨fun _ => fits, by simp⟩
    | blockComment _ _ fits =>
      rw [whole] at fits
      exact ⟨fun _ => fits, by split <;> simp⟩
    | word =>
      rcases cutWord_kind s.afterAccess (c :: (more ++ rest)) with same | same <;>
        exact ⟨by simp [same], by simp [same]⟩
    | _ => exact ⟨by simp, by simp⟩
  · have sort := cutInline_kind (x := text ++ rest)
    rw [Except.ok.inj cut] at sort
    rcases sort with rfl | rfl <;> constructor <;> simp

/-! ### The whole text -/

/-- Lexing takes lexemes from the front of a text until `left` is left of it. -/
inductive Reaches (limits : Limits) : Scan → Text → Scan → Text → Prop where
  | here {s : Scan} {t : Text} : Reaches limits s t s t
  | step {s s' : Scan} {kind : TokenKind} {text rest left : Text} :
      s.cut limits (text ++ rest) = .ok (kind, text.length) → s.lexemes.size < limits.tokens →
      Reaches limits (s.accept kind text) rest s' left → Reaches limits s (text ++ rest) s' left

def Stuck (limits : Limits) (s : Scan) (t : Text) (e : LexError) : Prop :=
  s.cut limits t = .error e ∨
    limits.tokens ≤ s.lexemes.size ∧ e = .tokenLimit (s.lexemes.size + 1) limits.tokens

theorem reaches_of_run (enough : t.length ≤ fuel) (fresh : s.failure = none)
    (failed : (run limits fuel t s).failure = some e) :
    ∃ s' left, Reaches limits s t s' left ∧ left ≠ [] ∧ s'.Stuck limits left e ∧
      (run limits fuel t s).lexemes = s'.lexemes := by
  induction fuel generalizing t s with
  | zero =>
    -- A text that is used up leaves the scan as it was, without a failure.
    obtain rfl : t = [] := List.eq_nil_of_length_eq_zero (by omega)
    rw [run_nil, fresh] at failed
    cases failed
  | succ fuel ih =>
    by_cases empty : t = []
    · rw [empty, run_nil, fresh] at failed
      cases failed
    cases cut : s.cut limits t with
    | error e' =>
      rw [run_of_cut_error empty cut] at failed ⊢
      obtain rfl := Option.some.inj failed
      exact ⟨s, t, .here, empty, .inl cut, rfl⟩
    | ok piece =>
      obtain ⟨kind, n⟩ := piece
      have shorter := length_drop_lt empty cut
      obtain ⟨text, rest, rfl, -, rfl⟩ := exists_front empty cut
      rw [List.drop_left] at shorter
      rw [run_of_cut_ok empty cut, List.drop_left, List.take_left] at failed ⊢
      split at failed
      · rename_i full
        rw [if_pos full]
        obtain rfl := Option.some.inj failed
        exact ⟨s, _, .here, empty, .inr ⟨full, rfl⟩, rfl⟩
      · rename_i room
        rw [if_neg room]
        have fresh' : (s.accept kind text).failure = none := fresh
        obtain ⟨s', left, reaches, some, stuck, same⟩ := ih (by omega) fresh' failed
        exact ⟨s', left, .step cut (by omega) reaches, some, stuck, same⟩

/-- The lexemes taken make up the text before what is left, and the line is counted along them. -/
theorem Reaches.pieces (reaches : Reaches limits s t s' left) :
    ∃ pieces, s'.lexemes.toList = s.lexemes.toList ++ pieces ∧
      t = pieces.flatMap (·.text) ++ left ∧
      s'.line = s.line + Text.lineFeeds (pieces.flatMap (·.text)) ∧
      (s.lexemes.size ≤ limits.tokens → s'.lexemes.size ≤ limits.tokens) := by
  induction reaches with
  | here => exact ⟨[], by simp, rfl, rfl, id⟩
  | @step s s' kind text rest left cut room _ ih =>
    obtain ⟨pieces, all, rfl, line, bound⟩ := ih
    refine ⟨⟨kind, text⟩ :: pieces, by simp [all, accept], by simp, ?_, ?_⟩
    · rw [line, List.flatMap_cons, accept]
      simp only [Text.lineFeeds, List.count_append]
      omega
    · intro _
      refine bound ?_
      rw [accept, Array.size_push]
      exact room

theorem fault_of_stuck (some : t ≠ []) (bound : s.lexemes.size ≤ limits.tokens)
    (stuck : s.Stuck limits t e) : Fault limits s.lexemes.size s.line t e := by
  rcases stuck with failed | ⟨full, rfl⟩
  · obtain ⟨c, rest, rfl⟩ := List.exists_cons_of_ne_nil some
    unfold Scan.cut at failed
    split at failed
    · exact fault_of_cutCode failed
    · cases failed
  · have same : s.lexemes.size = limits.tokens := by omega
    rw [same]
    exact .tokenLimit rfl

theorem result_error : s.result = .error e ↔ s.failure = some e := by
  unfold result
  cases s.failure <;> simp

def taken (s : Scan) : Text := s.lexemes.toList.flatMap (·.text)

theorem fault_of_source {source : Text} (failed : (ofSource limits source).failure = some e) :
    ∃ rest, source = (ofSource limits source).taken ++ rest ∧ rest ≠ [] ∧
      Fault limits (ofSource limits source).lexemes.size
        (1 + Text.lineFeeds (ofSource limits source).taken) rest e := by
  obtain ⟨s', rest, reaches, some, stuck, same⟩ := reaches_of_run (Nat.le_refl _) rfl failed
  have accepted : (ofSource limits source).lexemes = s'.lexemes := same
  obtain ⟨pieces, all, split, line, bound⟩ := reaches.pieces
  rw [List.nil_append] at all
  have fault := fault_of_stuck some (bound (Nat.zero_le _)) stuck
  rw [line] at fault
  rw [taken, accepted, all]
  exact ⟨rest, split, some, fault⟩

/-- Lexing keeps to the limits, or stops at a fault of the source after the lexemes before it. -/
theorem bounded_or_faulty (limits : Limits) (source : Text) :
    (∀ lexemes, (ofSource limits source).result = .ok lexemes →
      lexemes.length ≤ limits.tokens ∧ ∀ l ∈ lexemes, l.Within limits) ∧
    ∀ e, (ofSource limits source).result = .error e →
      ∃ rest, source = (ofSource limits source).taken ++ rest ∧ rest ≠ [] ∧
        Fault limits (ofSource limits source).lexemes.size
          (1 + Text.lineFeeds (ofSource limits source).taken) rest e := by
  refine ⟨fun lexemes lexed => ⟨(ofSource_pieces lexed).2.2, fun l member => ?_⟩,
    fun e failed => fault_of_source (result_error.mp failed)⟩
  obtain ⟨before, after, split⟩ := List.append_of_mem member
  exact ofSource_each (P := fun l _ => l.Within limits) lexed
    (fun s kind text rest nonempty cut => within_of_cut nonempty cut) before l after split

/-- A quote after the first line feed, with an escaped quote and another line feed behind it. -/
theorem bounded_or_faulty_open_quote :
    (ofSource .development "<?php\n$a = 'it\\'s;\n".toList).result = .error (.openString 2) ∧
    (ofSource .development "<?php\n$a = 'it\\'s;\n".toList).taken = "<?php\n$a = ".toList ∧
    Fault .development 6 2 "'it\\'s;\n".toList (.openString 2) := by
  have failed := result_error.mpr (show (ofSource .development
    "<?php\n$a = 'it\\'s;\n".toList).failure = some (.openString 2) by decide)
  have taken : (ofSource .development "<?php\n$a = 'it\\'s;\n".toList).taken =
    "<?php\n$a = ".toList := by decide
  have size : (ofSource .development "<?php\n$a = 'it\\'s;\n".toList).lexemes.size = 6 := by decide
  obtain ⟨rest, split, -, fault⟩ := (bounded_or_faulty .development _).2 _ failed
  rw [taken] at split fault
  rw [size] at fault
  obtain rfl : "'it\\'s;\n".toList = rest :=
    List.append_cancel_left (show "<?php\n$a = ".toList ++ _ = _ from split)
  exact ⟨failed, taken, fault⟩

end Scan

end Restyle
