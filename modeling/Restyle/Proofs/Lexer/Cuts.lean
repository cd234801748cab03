import Mathlib.Logic.Basic
import Restyle.Lexer.Scan
import Restyle.Proofs.Lexer.HeredocHeader
import Restyle.Proofs.Outcome

/-!
# Where lexemes end

Each scanner cuts off at least one character, and no more than there are (`cut_bounds`).
-/

namespace Restyle

namespace Text
variable {p : Char → Bool} {stop : Text → Bool} {t start : Text} {n k : Nat}

theorem length_takeWhile_le (p : Char → Bool) (t : Text) : (t.takeWhile p).length ≤ t.length :=
  (List.takeWhile_prefix p).length_le

theorem length_takeWhile_pos {c : Char} {rest : Text} (first : p c = true) :
    0 < ((c :: rest).takeWhile p).length := by simp [first]

theorem length_le_of_isPrefixOf (starts : start.isPrefixOf t = true) : start.length ≤ t.length :=
  (List.isPrefixOf_iff_prefix.mp starts).length_le

theorem seek?_go_bounds (found : seek?.go stop t n = some k) :
    n ≤ k ∧ k < n + t.length ∧ stop (t.drop (k - n)) = true := by
  induction t generalizing n with
  | nil => simp [seek?.go] at found
  | cons c rest ih =>
    rw [seek?.go] at found
    split at found
    · rename_i stopped
      obtain rfl := Option.some.inj found
      simp [stopped]
    · obtain ⟨lower, upper, stopped⟩ := ih found
      have later : k - n = (k - (n + 1)) + 1 := by omega
      rw [later, List.drop_succ_cons, List.length_cons]
      exact ⟨by omega, by omega, stopped⟩

theorem seek?_bounds (found : seek? stop t = some n) :
    n < t.length ∧ stop (t.drop n) = true := by
  obtain ⟨-, upper, stopped⟩ := seek?_go_bounds found
  exact ⟨by omega, by simpa using stopped⟩

theorem seek_le (stop : Text → Bool) (t : Text) : seek stop t ≤ t.length := by
  unfold seek
  cases found : seek? stop t with
  | none => simp
  | some n =>
    have bounds := seek?_bounds found
    exact Nat.le_of_lt bounds.1

theorem seek_pos (nonempty : t ≠ []) (goes : stop t = false) : 0 < seek stop t := by
  unfold seek
  cases found : seek? stop t with
  | none => exact List.length_pos_iff.mpr nonempty
  | some n =>
    cases n with
    | zero =>
      have stopped := (seek?_bounds found).2
      simp [goes] at stopped
    | succ n => simp

end Text

namespace Lexer
variable {limits : Limits} {t : Text} {c : Char} {rest : Text} {n k : Nat} {kind : TokenKind}

/-! ### Words, operators and tags -/

theorem wordLength_le (t : Text) : wordLength t ≤ t.length := Text.length_takeWhile_le _ t

theorem wordLength_pos (starts : isWordStart c = true) : 0 < wordLength (c :: rest) :=
  Text.length_takeWhile_pos (by simp [isWordChar, starts])

theorem operatorLength_le (t : Text) : operatorLength t ≤ t.length := by
  unfold operatorLength
  split
  · rename_i op found
    have starts : op.isPrefixOf t = true := by simpa using List.find?_some found
    exact Text.length_le_of_isPrefixOf starts
  · cases t with
    | nil => simp
    | cons c rest => split <;> simp

theorem openTagLength_le (t : Text) : openTagLength t ≤ t.length := by
  unfold openTagLength
  split
  · rename_i same
    have lengths := congrArg List.length (beq_iff_eq.mp same)
    simp only [List.length_map, List.length_take] at lengths
    change min 5 t.length = 5 at lengths
    omega
  · split
    · rename_i starts
      exact Text.length_le_of_isPrefixOf starts
    · omega

theorem cutInline_bounds (nonempty : t ≠ []) :
    0 < (cutInline t).2 ∧ (cutInline t).2 ≤ t.length := by
  unfold cutInline
  split
  · rename_i tag
    exact ⟨by simpa [Nat.pos_iff_ne_zero] using tag, openTagLength_le t⟩
  · rename_i tag
    exact ⟨Text.seek_pos nonempty (by simpa using tag), Text.seek_le _ t⟩

/-! ### Numbers -/

namespace Number

theorem runLength_le (digit : Char → Bool) (t : Text) : runLength digit t ≤ t.length :=
  Text.length_takeWhile_le _ t

theorem digitsLength_le (digit : Char → Bool) (t : Text) : digitsLength digit t ≤ t.length := by
  unfold digitsLength
  split
  · exact runLength_le digit t
  · omega

theorem digitsLength_pos {digit : Char → Bool} (starts : t.head?.any digit = true) :
    0 < digitsLength digit t := by
  cases t with
  | nil => simp at starts
  | cons c rest =>
    rw [digitsLength, if_pos starts]
    exact Text.length_takeWhile_pos (by simpa using .inl starts)

theorem radixLength_le (t : Text) : radixLength t ≤ t.length := by
  unfold radixLength
  split
  · rename_i mark digits
    have marked : ∀ body ≤ digits.length, (if body = 0 then 0 else body + 2) ≤ digits.length + 2 := by
      intro body bound
      split <;> omega
    refine marked _ ?_
    split
    · exact digitsLength_le Text.isHexDigit digits
    · split
      · exact digitsLength_le isBinaryDigit digits
      · omega
  · omega

theorem fractionLength_le (t : Text) : fractionLength t ≤ t.length := by
  unfold fractionLength
  split
  · rename_i digits
    have body := digitsLength_le Char.isDigit digits
    simp only [List.length_cons]
    split <;> omega
  · omega

theorem exponentLength_le (t : Text) : exponentLength t ≤ t.length := by
  cases t with
  | nil => simp [exponentLength]
  | cons mark t =>
    have body := digitsLength_le Char.isDigit (t.drop (signLength t))
    have sign : signLength t ≤ t.length := by
      cases t with
      | nil => simp [signLength]
      | cons c rest =>
        simp only [signLength, List.length_cons]
        split <;> omega
    simp only [List.length_drop] at body
    simp only [exponentLength, List.length_cons]
    split <;> omega

theorem decimalLength_le (t : Text) : decimalLength t ≤ t.length := by
  have whole := runLength_le Char.isDigit t
  have fraction := fractionLength_le (t.drop (runLength Char.isDigit t))
  have exponent := exponentLength_le
    (t.drop (runLength Char.isDigit t + fractionLength (t.drop (runLength Char.isDigit t))))
  simp only [List.length_drop] at fraction exponent
  simp only [decimalLength]
  omega

theorem decimalLength_pos
    (starts : (c.isDigit || (c == '.' && rest.head?.any Char.isDigit)) = true) :
    0 < decimalLength (c :: rest) := by
  simp only [Bool.or_eq_true, Bool.and_eq_true, beq_iff_eq] at starts
  rcases starts with digit | ⟨rfl, digit⟩
  · have whole : 0 < runLength Char.isDigit (c :: rest) :=
      Text.length_takeWhile_pos (by simp [digit])
    simp only [decimalLength]
    omega
  · have whole : runLength Char.isDigit ('.' :: rest) = 0 := by
      simp [runLength]
    have body := digitsLength_pos digit
    have fraction : 0 < fractionLength ('.' :: rest) := by
      simp only [fractionLength]
      split <;> omega
    simp only [decimalLength, whole, List.drop_zero]
    omega

theorem length_bounds
    (starts : (c.isDigit || (c == '.' && rest.head?.any Char.isDigit)) = true) :
    0 < length (c :: rest) ∧ length (c :: rest) ≤ (c :: rest).length := by
  have based := radixLength_le (c :: rest)
  have decimal := decimalLength_le (c :: rest)
  have positive := decimalLength_pos starts
  simp only [length]
  split <;> omega

end Number

/-! ### Strings and comments -/

theorem Quoted.closing?_bounds {quote : Char} (found : Quoted.closing? quote t n = some k) :
    n < k ∧ k ≤ n + t.length := by
  fun_induction Quoted.closing? quote t n with
  | case1 => simp at found
  | case2 => simp at found
  | case3 c rest n ih =>
    obtain ⟨lower, upper⟩ := ih found
    simp only [List.length_cons]
    omega
  | case4 c rest n _ _ same =>
    obtain rfl := Option.some.inj found
    simp only [List.length_cons]
    omega
  | case5 c rest n _ _ different ih =>
    obtain ⟨lower, upper⟩ := ih found
    simp only [List.length_cons]
    omega

theorem Quoted.length?_bounds {quote : Char} (found : Quoted.length? quote (c :: rest) = some n) :
    0 < n ∧ n ≤ (c :: rest).length := by
  obtain ⟨lower, upper⟩ := Quoted.closing?_bounds found
  simp only [List.tail_cons] at upper
  simp only [List.length_cons]
  omega

/-- A comment does not end where it starts. -/
theorem Comment.endsLine_of_opens (opens : c = '#' ∨ "//".toList.isPrefixOf (c :: rest) = true) :
    Comment.endsLine (c :: rest) = false := by
  have first : c = '#' ∨ '/' = c := by
    rcases opens with hash | slashes
    · exact .inl hash
    · have slashes : ['/', '/'].isPrefixOf (c :: rest) = true := slashes
      exact .inr (List.cons_prefix_cons.mp (List.isPrefixOf_iff_prefix.mp slashes)).1
  rcases first with rfl | rfl <;> simp [Comment.endsLine]

theorem Comment.lineLength_bounds (nonempty : t ≠ []) (goes : Comment.endsLine t = false) :
    0 < Comment.lineLength t ∧ Comment.lineLength t ≤ t.length :=
  ⟨Text.seek_pos nonempty goes, Text.seek_le _ t⟩

theorem Comment.blockLength?_bounds (found : Comment.blockLength? t = some n) :
    0 < n ∧ n ≤ t.length := by
  obtain ⟨k, sought, rfl⟩ := Option.map_eq_some_iff.mp found
  obtain ⟨-, closes⟩ := Text.seek?_bounds sought
  have room := Text.length_le_of_isPrefixOf closes
  simp only [List.length_drop] at room
  change 2 ≤ _ at room
  omega

namespace Heredoc

theorem closingLabel?_le {label line : Text} (found : closingLabel? label line = some n) :
    n ≤ line.length := by
  simp only [closingLabel?] at found
  split at found
  · rename_i closes
    simp only [Bool.and_eq_true] at closes
    have indent := Text.length_takeWhile_le Text.isBlank line
    have room := Text.length_le_of_isPrefixOf closes.1
    rw [List.length_drop] at room
    have same := Option.some.inj found
    omega
  · simp at found

theorem closing?_bounds {label : Text} {fresh : Bool} (found : closing? label t fresh n = some k) :
    n ≤ k ∧ k ≤ n + t.length := by
  induction t generalizing fresh n with
  | nil => simp [closing?] at found
  | cons c rest ih =>
    rw [closing?] at found
    split at found
    · rename_i m closes
      obtain rfl := Option.some.inj found
      split at closes
      · have room := closingLabel?_le closes
        omega
      · simp at closes
    · obtain ⟨lower, upper⟩ := ih found
      simp only [List.length_cons]
      omega

theorem length?_bounds {header : Header} (headed : header? t = some header)
    (found : length? header t = some n) : 0 < n ∧ n ≤ t.length := by
  obtain ⟨positive, fits⟩ := header?_bounds headed
  obtain ⟨lower, upper⟩ := closing?_bounds found
  rw [List.length_drop] at upper
  omega

end Heredoc

/-! ### Every lexeme -/

theorem cutInline_kind {x : Text} :
    (cutInline x).1 = .openTag ∨ (cutInline x).1 = .inlineText := by
  unfold cutInline
  split
  · exact .inl rfl
  · exact .inr rfl

theorem cutWord_kind (afterAccess : Bool) (t : Text) :
    (cutWord afterAccess t).1 = .keyword ∨ (cutWord afterAccess t).1 = .identifier := by
  unfold cutWord
  dsimp only
  split
  · exact .inl rfl
  · exact .inr rfl

theorem cutString_ok : cutString limits t n = .ok (kind, k) ↔
    Text.byteSize (t.take n) ≤ limits.stringBytes ∧ kind = .stringLiteral ∧ k = n := by
  simp only [cutString]
  split <;> simp [eq_comm] <;> omega

theorem cutComment_ok {sort : TokenKind} : cutComment limits sort t n = .ok (kind, k) ↔
    Text.byteSize (t.take n) ≤ limits.commentBytes ∧ kind = sort ∧ k = n := by
  simp only [cutComment]
  split <;> simp [eq_comm] <;> omega

/-- The lexemes that can be cut from a text inside a code section, one case for each scanner. -/
inductive CodeCut (limits : Limits) (afterAccess : Bool) (c : Char) (rest : Text) :
    TokenKind → Nat → Prop where
  | whitespace : Text.isSpace c = true →
      CodeCut limits afterAccess c rest .whitespace ((c :: rest).takeWhile Text.isSpace).length
  | variableName : c = '$' → startsWord rest = true →
      CodeCut limits afterAccess c rest .variableName (wordLength rest + 1)
  | word : isWordStart c = true →
      CodeCut limits afterAccess c rest (cutWord afterAccess (c :: rest)).1 (wordLength (c :: rest))
  | number : (c.isDigit || (c == '.' && rest.head?.any Char.isDigit)) = true →
      CodeCut limits afterAccess c rest .numberLiteral (Number.length (c :: rest))
  | quoted {n : Nat} : c = '\'' ∨ c = '"' → Quoted.length? c (c :: rest) = some n →
      Text.byteSize ((c :: rest).take n) ≤ limits.stringBytes →
      CodeCut limits afterAccess c rest .stringLiteral n
  | attributeMark : "#[".toList.isPrefixOf (c :: rest) = true →
      CodeCut limits afterAccess c rest .punctuation 2
  | lineComment : c = '#' ∨ "//".toList.isPrefixOf (c :: rest) = true →
      Text.byteSize ((c :: rest).take (Comment.lineLength (c :: rest))) ≤ limits.commentBytes →
      CodeCut limits afterAccess c rest .comment (Comment.lineLength (c :: rest))
  | blockComment {n : Nat} : "/*".toList.isPrefixOf (c :: rest) = true →
      Comment.blockLength? (c :: rest) = some n →
      Text.byteSize ((c :: rest).take n) ≤ limits.commentBytes →
      CodeCut limits afterAccess c rest
        (if Comment.isDoc (c :: rest) then .docComment else .comment) n
  | closingTag : "?>".toList.isPrefixOf (c :: rest) = true →
      CodeCut limits afterAccess c rest .openTag 2
  | shift : "<<<".toList.isPrefixOf (c :: rest) = true → Heredoc.header? (c :: rest) = none →
      CodeCut limits afterAccess c rest .operator 2
  | heredoc {header : Heredoc.Header} {n : Nat} : Heredoc.header? (c :: rest) = some header →
      Heredoc.length? header (c :: rest) = some n →
      Text.byteSize ((c :: rest).take n) ≤ limits.stringBytes →
      CodeCut limits afterAccess c rest .stringLiteral n
  | punctuation : punctuation.contains c = true → CodeCut limits afterAccess c rest .punctuation 1
  | operator : operatorLength (c :: rest) ≠ 0 →
      CodeCut limits afterAccess c rest .operator (operatorLength (c :: rest))
  | other : CodeCut limits afterAccess c rest .unclassified 1

section CodeCut
variable {line : Nat} {afterAccess : Bool}

theorem codeCut_of_cutQuoted (quote : c = '\'' ∨ c = '"')
    (ok : cutQuoted limits line c (c :: rest) = .ok (kind, n)) :
    CodeCut limits afterAccess c rest kind n := by
  unfold cutQuoted at ok
  split at ok
  · rename_i k found
    obtain ⟨fits, rfl, rfl⟩ := cutString_ok.mp ok
    exact .quoted quote found fits
  · simp at ok

theorem codeCut_of_cutBlockComment (starts : "/*".toList.isPrefixOf (c :: rest) = true)
    (ok : cutBlockComment limits line (c :: rest) = .ok (kind, n)) :
    CodeCut limits afterAccess c rest kind n := by
  unfold cutBlockComment at ok
  split at ok
  · rename_i k found
    obtain ⟨fits, rfl, rfl⟩ := cutComment_ok.mp ok
    exact .blockComment starts found fits
  · simp at ok

theorem codeCut_of_cutHeredoc (starts : "<<<".toList.isPrefixOf (c :: rest) = true)
    (ok : cutHeredoc limits line (c :: rest) = .ok (kind, n)) :
    CodeCut limits afterAccess c rest kind n := by
  unfold cutHeredoc at ok
  split at ok
  · rename_i missing
    obtain ⟨rfl, rfl⟩ := Prod.mk.inj (Except.ok.inj ok)
    exact .shift starts missing
  · rename_i header headed
    split at ok
    · rename_i k found
      obtain ⟨fits, rfl, rfl⟩ := cutString_ok.mp ok
      exact .heredoc headed found fits
    · simp at ok

theorem codeCut_of_cutCode
    (ok : cutCode limits line afterAccess (c :: rest) = .ok (kind, n)) :
    CodeCut limits afterAccess c rest kind n := by
  rw [cutCode] at ok
  rcases ite_eq_iff.mp ok with ⟨space, ok⟩ | ⟨-, ok⟩
  · obtain ⟨rfl, rfl⟩ := Prod.mk.inj (Except.ok.inj ok)
    exact .whitespace space
  rcases ite_eq_iff.mp ok with ⟨starts, ok⟩ | ⟨-, ok⟩
  · obtain ⟨rfl, rfl⟩ := Prod.mk.inj (Except.ok.inj ok)
    simp only [Bool.and_eq_true, beq_iff_eq] at starts
    exact .variableName starts.1 starts.2
  rcases ite_eq_iff.mp ok with ⟨starts, ok⟩ | ⟨-, ok⟩
  · obtain ⟨rfl, rfl⟩ := Prod.mk.inj (Except.ok.inj ok)
    exact .word starts
  rcases ite_eq_iff.mp ok with ⟨starts, ok⟩ | ⟨-, ok⟩
  · obtain ⟨rfl, rfl⟩ := Prod.mk.inj (Except.ok.inj ok)
    exact .number starts
  rcases ite_eq_iff.mp ok with ⟨quote, ok⟩ | ⟨-, ok⟩
  · exact codeCut_of_cutQuoted (by simpa using quote) ok
  rcases ite_eq_iff.mp ok with ⟨starts, ok⟩ | ⟨-, ok⟩
  · obtain ⟨rfl, rfl⟩ := Prod.mk.inj (Except.ok.inj ok)
    exact .attributeMark starts
  rcases ite_eq_iff.mp ok with ⟨starts, ok⟩ | ⟨-, ok⟩
  · obtain ⟨fits, rfl, rfl⟩ := cutComment_ok.mp ok
    simp only [Bool.or_eq_true, beq_iff_eq] at starts
    exact .lineComment starts fits
  rcases ite_eq_iff.mp ok with ⟨starts, ok⟩ | ⟨-, ok⟩
  · exact codeCut_of_cutBlockComment starts ok
  rcases ite_eq_iff.mp ok with ⟨starts, ok⟩ | ⟨-, ok⟩
  · obtain ⟨rfl, rfl⟩ := Prod.mk.inj (Except.ok.inj ok)
    exact .closingTag starts
  rcases ite_eq_iff.mp ok with ⟨starts, ok⟩ | ⟨-, ok⟩
  · exact codeCut_of_cutHeredoc starts ok
  rcases ite_eq_iff.mp ok with ⟨mark, ok⟩ | ⟨-, ok⟩
  · obtain ⟨rfl, rfl⟩ := Prod.mk.inj (Except.ok.inj ok)
    exact .punctuation mark
  rcases ite_eq_iff.mp ok with ⟨some, ok⟩ | ⟨-, ok⟩
  · obtain ⟨rfl, rfl⟩ := Prod.mk.inj (Except.ok.inj ok)
    exact .operator (bne_iff_ne.mp some)
  · obtain ⟨rfl, rfl⟩ := Prod.mk.inj (Except.ok.inj ok)
    exact .other

theorem codeCut_of_append {x y : Text} (nonempty : x ≠ [])
    (ok : cutCode limits line afterAccess (x ++ y) = .ok (kind, x.length)) :
    ∃ c rest, x = c :: rest ∧ CodeCut limits afterAccess c (rest ++ y) kind (c :: rest).length := by
  obtain ⟨c, rest, rfl⟩ := List.exists_cons_of_ne_nil nonempty
  exact ⟨c, rest, rfl, codeCut_of_cutCode ok⟩

theorem CodeCut.bounds (cut : CodeCut limits afterAccess c rest kind n) :
    0 < n ∧ n ≤ (c :: rest).length := by
  cases cut with
  | whitespace space => exact ⟨Text.length_takeWhile_pos space, Text.length_takeWhile_le _ _⟩
  | variableName =>
    have bound := wordLength_le rest
    simp only [List.length_cons]
    omega
  | word starts => exact ⟨wordLength_pos starts, wordLength_le _⟩
  | number starts => exact Number.length_bounds starts
  | quoted _ found => exact Quoted.length?_bounds found
  | attributeMark starts => exact ⟨by omega, Text.length_le_of_isPrefixOf starts⟩
  | lineComment opens => exact Comment.lineLength_bounds (by simp) (Comment.endsLine_of_opens opens)
  | blockComment _ found => exact Comment.blockLength?_bounds found
  | closingTag starts => exact ⟨by omega, Text.length_le_of_isPrefixOf starts⟩
  | shift starts =>
    have room : 3 ≤ (c :: rest).length := Text.length_le_of_isPrefixOf starts
    omega
  | heredoc headed found => exact Heredoc.length?_bounds headed found
  | punctuation => simp
  | operator some => exact ⟨by omega, operatorLength_le _⟩
  | other => simp

end CodeCut

end Lexer

open Lexer in
theorem Scan.cut_bounds {limits : Limits} {s : Scan} {t : Text} {kind : TokenKind} {n : Nat}
    (nonempty : t ≠ []) (ok : s.cut limits t = .ok (kind, n)) : 0 < n ∧ n ≤ t.length := by
  unfold Scan.cut at ok
  split at ok
  · cases t with
    | nil => exact (nonempty rfl).elim
    | cons c rest => exact (codeCut_of_cutCode ok).bounds
  · obtain ⟨-, rfl⟩ := Prod.mk.inj (Except.ok.inj ok)
    exact cutInline_bounds nonempty

end Restyle
