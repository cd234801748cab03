import Restyle.Proofs.Lexer.Heredoc

/-!
# A lexeme and what follows it

A lexeme that was cut from `x` and what follows it is cut in the same way if something else follows,
as long as that starts with an inert character (`cutCode_append`).
-/

namespace Restyle.Lexer
variable {limits : Limits} {line : Nat} {afterAccess : Bool} {x y a b s : Text} {c : Char} {n : Nat}
  {kind : TokenKind}

theorem any_head_append {p : Char → Bool} (out : ∀ c, p c = true → inert c = false) (calm : Inert b)
    (holds : (x ++ b).head?.any p = true) : (x ++ a).head?.any p = true := by
  cases x with
  | nil =>
    rw [List.nil_append, calm.any_head out] at holds
    cases holds
  | cons c x => exact holds

theorem take_append (fits : n ≤ x.length) : (x ++ b).take n = (x ++ a).take n := by
  rw [List.take_append_of_le_length fits, List.take_append_of_le_length fits]

theorem isWordChar_of_isWordStart (starts : isWordStart c = true) : isWordChar c = true := by
  simp [isWordChar, starts]

/-! ### One scanner after the other -/

theorem cutString_append (ok : cutString limits (x ++ a) n = .ok (kind, n)) (fits : n ≤ x.length) :
    cutString limits (x ++ b) n = .ok (kind, n) := by
  unfold cutString at ok ⊢
  rw [take_append (a := a) fits]
  exact ok

theorem cutComment_append {sort : TokenKind} (ok : cutComment limits sort (x ++ a) n = .ok (kind, n))
    (fits : n ≤ x.length) : cutComment limits sort (x ++ b) n = .ok (kind, n) := by
  unfold cutComment at ok ⊢
  rw [take_append (a := a) fits]
  exact ok

theorem cutWord_append (calm : Inert b) (fits : wordLength (x ++ a) ≤ x.length) :
    cutWord afterAccess (x ++ b) = cutWord afterAccess (x ++ a) := by
  simp only [cutWord, reaches_wordLength calm fits, take_append (a := a) fits]

theorem cutQuoted_append (nonempty : x ≠ []) (ok : cutQuoted limits line c (x ++ a) = .ok (kind, n))
    (fits : n ≤ x.length) : cutQuoted limits line c (x ++ b) = .ok (kind, n) := by
  obtain ⟨d, y, rfl⟩ := List.exists_cons_of_ne_nil nonempty
  unfold cutQuoted at ok ⊢
  cases found : Quoted.length? c (d :: y ++ a) with
  | none =>
    rw [found] at ok
    cases ok
  | some k =>
    rw [found] at ok
    obtain ⟨-, -, rfl⟩ := cutString_ok.mp ok
    have same : Quoted.length? c (d :: y ++ b) = some n :=
      Quoted.closing?_append found (by simp only [List.length_cons] at fits; omega)
    rw [same]
    exact cutString_append ok fits

theorem cutBlockComment_append (starts : "/*".toList.isPrefixOf (x ++ a) = true)
    (ok : cutBlockComment limits line (x ++ a) = .ok (kind, n)) (fits : n ≤ x.length) :
    "/*".toList.isPrefixOf (x ++ b) = true ∧ cutBlockComment limits line (x ++ b) = .ok (kind, n) := by
  unfold cutBlockComment at ok ⊢
  cases found : Comment.blockLength? (x ++ a) with
  | none =>
    rw [found] at ok
    cases ok
  | some k =>
    rw [found] at ok
    obtain ⟨-, -, rfl⟩ := cutComment_ok.mp ok
    have long : 4 ≤ x.length := by
      obtain ⟨k, -, rfl⟩ := Option.map_eq_some_iff.mp found
      omega
    have same : Comment.blockLength? (x ++ b) = some n :=
      Comment.blockLength?_append (by omega) found fits
    refine ⟨isPrefixOf_append (isPrefixOf_of_le (show 2 ≤ x.length by omega) starts), ?_⟩
    rw [same]
    rw [Comment.isDoc_append long] at ok ⊢
    exact cutComment_append ok fits

theorem cutHeredoc_append (calm : Inert b) (starts : "<<<".toList.isPrefixOf (x ++ a) = true)
    (ok : cutHeredoc limits line (x ++ a) = .ok (kind, n)) (fits : n ≤ x.length)
    (notShift : kind = .operator → x.take n ≠ "<<".toList) :
    "<<<".toList.isPrefixOf (x ++ b) = true ∧ cutHeredoc limits line (x ++ b) = .ok (kind, n) := by
  unfold cutHeredoc at ok ⊢
  cases headed : Heredoc.header? (x ++ a) with
  | none =>
    rw [headed] at ok
    obtain ⟨rfl, rfl⟩ := Prod.mk.inj (Except.ok.inj ok)
    refine (notShift rfl ?_).elim
    obtain ⟨rest, split⟩ := List.isPrefixOf_iff_prefix.mp starts
    have whole : (x ++ a).take 2 = x.take 2 := List.take_append_of_le_length fits
    rw [← whole, ← split]
    rfl
  | some header =>
    rw [headed] at ok
    cases found : Heredoc.length? header (x ++ a) with
    | none =>
      simp only [found] at ok
      cases ok
    | some k =>
      simp only [found] at ok
      obtain ⟨-, -, rfl⟩ := cutString_ok.mp ok
      have calm' := calm.any_head fun c => not_inert_of_word (c := c)
      obtain ⟨headed', found'⟩ := Heredoc.length?_append calm' headed found fits
      have long : 3 ≤ x.length := by
        obtain ⟨start, blanks, quote, label, returns, rest, -, rfl⟩ := Heredoc.exists_split headed
        have bounds := Heredoc.closing?_bounds found
        simp only [Heredoc.headerOf] at bounds
        omega
      refine ⟨isPrefixOf_append (isPrefixOf_of_le long starts), ?_⟩
      simp only [headed', found']
      exact cutString_append ok fits

theorem Comment.two_le_lineLength (starts : "//".toList.isPrefixOf x = true) :
    2 ≤ Comment.lineLength x := by
  obtain ⟨rest, rfl⟩ := List.isPrefixOf_iff_prefix.mp starts
  obtain ⟨-, -, here⟩ := Text.seek_eq.mp (rfl : Comment.lineLength ("//".toList ++ rest) = _)
  by_contra short
  have goes : ∀ n < 2, Comment.endsLine (("//".toList ++ rest).drop n) = false := by
    intro n lt
    match n, lt with
    | 0, _ => exact Comment.endsLine_cons
    | 1, _ => exact Comment.endsLine_cons
  have stops := here (by
    rw [List.length_append]
    show _ < 2 + _
    omega)
  rw [goes _ (by omega)] at stops
  cases stops

theorem Number.two_le_length (digit : x.head?.any Char.isDigit = true) :
    2 ≤ Number.length ('.' :: x) := by
  have some := Number.digitsLength_pos digit
  have based : Number.radixLength ('.' :: x) = 0 := Number.radixLength_of_ne (by decide)
  have whole : Number.runLength Char.isDigit ('.' :: x) = 0 := by simp [Number.runLength]
  have fraction : 2 ≤ Number.fractionLength ('.' :: x) := by
    rw [Number.fractionLength_point]
    split <;> omega
  simp only [Number.length, based, Number.decimalLength, whole, List.drop_zero, if_true]
  omega

theorem startsWord_append (starts : startsWord (y ++ a) = true)
    (fits : wordLength (y ++ a) ≤ y.length) : startsWord (y ++ b) = true := by
  cases y with
  | nil =>
    cases a with
    | nil => cases starts
    | cons d a =>
      have word : isWordStart d = true := starts
      have some : 0 < wordLength (d :: a) := wordLength_pos word
      simp only [List.nil_append, List.length_nil] at fits
      omega
  | cons d y => exact starts

theorem Number.starts_append
    (starts : (c.isDigit || (c == '.' && (y ++ a).head?.any Char.isDigit)) = true)
    (fits : Number.length (c :: y ++ a) ≤ y.length + 1) :
    (c.isDigit || (c == '.' && (y ++ b).head?.any Char.isDigit)) = true := by
  simp only [Bool.or_eq_true, Bool.and_eq_true, beq_iff_eq] at starts ⊢
  rcases starts with digit | ⟨rfl, digit⟩
  · exact .inl digit
  · refine .inr ⟨rfl, ?_⟩
    cases y with
    | nil =>
      have long := Number.two_le_length digit
      simp only [List.cons_append, List.nil_append, List.length_nil] at fits long
      omega
    | cons d y => exact digit

theorem Comment.opens_append (opens : c = '#' ∨ "//".toList.isPrefixOf (c :: y ++ a) = true)
    (fits : Comment.lineLength (c :: y ++ a) ≤ (c :: y).length) :
    c = '#' ∨ "//".toList.isPrefixOf (c :: y ++ b) = true := by
  refine opens.imp_right fun slashes => ?_
  have long := Comment.two_le_lineLength slashes
  exact isPrefixOf_append (isPrefixOf_of_le (show 2 ≤ _ by omega) slashes)

theorem Comment.not_block_of_opens (opens : c = '#' ∨ "//".toList.isPrefixOf (c :: y ++ a) = true) :
    "/*".toList.isPrefixOf (c :: y) = false := by
  rw [Bool.eq_false_iff]
  intro block
  have block : ['/', '*'] <+: c :: y ++ a := List.isPrefixOf_iff_prefix.mp (isPrefixOf_append block)
  rcases opens with rfl | slashes
  · exact absurd (List.cons_prefix_cons.mp block).1 (by decide)
  · have slashes : ['/', '/'] <+: c :: y ++ a := List.isPrefixOf_iff_prefix.mp slashes
    have same := (List.prefix_of_prefix_length_le block slashes (Nat.le_refl 2)).eq_of_length rfl
    cases same

/-- A mark in front of a lexeme is seen or not, whatever follows. -/
theorem isPrefixOf_congr (solid : s.tail.any inert = false) (nonempty : x ≠ []) (calm : Inert b)
    (absent : s.isPrefixOf (x ++ a) ≠ true) : s.isPrefixOf (x ++ b) ≠ true :=
  fun starts => absent (isPrefixOf_append (prefix_of_inert solid nonempty calm starts))

/-- What is cut off does not depend on what follows. This is not so for `<<`, after which a heredoc
may start, and a line comment needs a line end. -/
theorem cutCode_append (nonempty : x ≠ []) (calm : Inert b)
    (ok : cutCode limits line afterAccess (x ++ a) = .ok (kind, n)) (fits : n ≤ x.length)
    (seen : kind ≠ .whitespace) (notShift : kind = .operator → x.take n ≠ "<<".toList)
    (ends : kind = .comment → "/*".toList.isPrefixOf x = false →
      Comment.Ends ((x ++ a).drop n) → Comment.Ends ((x ++ b).drop n)) :
    cutCode limits line afterAccess (x ++ b) = .ok (kind, n) := by
  obtain ⟨c, y, rfl⟩ := List.exists_cons_of_ne_nil nonempty
  have length : (c :: y).length = y.length + 1 := rfl
  rw [List.cons_append, cutCode] at ok ⊢
  rw [← List.cons_append] at ok ⊢
  rcases ite_eq_iff.mp ok with ⟨space, ok⟩ | ⟨other, ok⟩
  · obtain ⟨rfl, -⟩ := Prod.mk.inj (Except.ok.inj ok)
    exact (seen rfl).elim
  rw [if_neg other]
  -- A variable.
  have wordStart : ∀ c, isWordStart c = true → inert c = false := fun c starts =>
    not_inert_of_word (isWordChar_of_isWordStart starts)
  rcases ite_eq_iff.mp ok with ⟨starts, ok⟩ | ⟨other, ok⟩
  · obtain ⟨rfl, rfl⟩ := Prod.mk.inj (Except.ok.inj ok)
    simp only [Bool.and_eq_true] at starts
    have fits : wordLength (y ++ a) ≤ y.length := by omega
    have starts' : startsWord (y ++ b) = true := startsWord_append starts.2 fits
    rw [if_pos (by simp [starts.1, starts']), reaches_wordLength calm fits]
  rw [if_neg (by
    simp only [Bool.and_eq_true, not_and] at other ⊢
    exact fun dollar starts => other dollar (any_head_append wordStart calm starts))]
  -- A word.
  rcases ite_eq_iff.mp ok with ⟨starts, ok⟩ | ⟨other, ok⟩
  · have cut := Except.ok.inj ok
    have fits : wordLength (c :: y ++ a) ≤ (c :: y).length := by
      rw [show wordLength (c :: y ++ a) = n from congrArg Prod.snd cut]
      exact fits
    rw [if_pos starts, cutWord_append calm fits]
    exact ok
  rw [if_neg other]
  -- A number.
  have digits : ∀ c, Char.isDigit c = true → inert c = false := fun c digit =>
    not_inert_of_word (isWordChar_of_isDigit digit)
  rcases ite_eq_iff.mp ok with ⟨starts, ok⟩ | ⟨other, ok⟩
  · obtain ⟨rfl, rfl⟩ := Prod.mk.inj (Except.ok.inj ok)
    rw [if_pos (Number.starts_append starts fits), Number.reaches_length calm fits]
  rw [if_neg (by
    simp only [Bool.or_eq_true, Bool.and_eq_true, not_or, not_and] at other ⊢
    exact ⟨other.1, fun point digit => other.2 point (any_head_append digits calm digit)⟩)]
  -- A quoted string.
  rcases ite_eq_iff.mp ok with ⟨quote, ok⟩ | ⟨other, ok⟩
  · rw [if_pos quote]
    exact cutQuoted_append nonempty ok fits
  rw [if_neg other]
  -- An attribute.
  rcases ite_eq_iff.mp ok with ⟨starts, ok⟩ | ⟨other, ok⟩
  · obtain ⟨rfl, rfl⟩ := Prod.mk.inj (Except.ok.inj ok)
    have inside : "#[".toList.isPrefixOf (c :: y) = true := isPrefixOf_of_le fits starts
    rw [if_pos (isPrefixOf_append inside)]
  rw [if_neg (isPrefixOf_congr (by decide) nonempty calm other)]
  -- A line comment.
  rcases ite_eq_iff.mp ok with ⟨starts, ok⟩ | ⟨other, ok⟩
  · obtain ⟨-, rfl, rfl⟩ := cutComment_ok.mp ok
    simp only [Bool.or_eq_true, beq_iff_eq] at starts
    have starts' := Comment.opens_append (b := b) starts fits
    have notBlock := Comment.not_block_of_opens starts
    rw [if_pos (by simpa using starts'),
      Comment.lineLength_append calm rfl fits (ends rfl notBlock)]
    exact cutComment_append ok fits
  rw [if_neg (by
    simp only [Bool.or_eq_true, not_or] at other ⊢
    exact ⟨other.1, isPrefixOf_congr (by decide) nonempty calm other.2⟩)]
  -- A block comment.
  rcases ite_eq_iff.mp ok with ⟨starts, ok⟩ | ⟨other, ok⟩
  · obtain ⟨starts', ok'⟩ := cutBlockComment_append (b := b) starts ok fits
    rw [if_pos starts']
    exact ok'
  rw [if_neg (isPrefixOf_congr (by decide) nonempty calm other)]
  -- A closing tag.
  rcases ite_eq_iff.mp ok with ⟨starts, ok⟩ | ⟨other, ok⟩
  · obtain ⟨rfl, rfl⟩ := Prod.mk.inj (Except.ok.inj ok)
    have inside : "?>".toList.isPrefixOf (c :: y) = true := isPrefixOf_of_le fits starts
    rw [if_pos (isPrefixOf_append inside)]
  rw [if_neg (isPrefixOf_congr (by decide) nonempty calm other)]
  -- A heredoc.
  rcases ite_eq_iff.mp ok with ⟨starts, ok⟩ | ⟨other, ok⟩
  · obtain ⟨starts', ok'⟩ := cutHeredoc_append calm starts ok fits notShift
    rw [if_pos starts']
    exact ok'
  rw [if_neg (isPrefixOf_congr (by decide) nonempty calm other)]
  -- Punctuation, an operator, or anything else.
  rcases ite_eq_iff.mp ok with ⟨mark, ok⟩ | ⟨other, ok⟩
  · rw [if_pos mark]
    exact ok
  rw [if_neg other]
  rcases ite_eq_iff.mp ok with ⟨some, ok⟩ | ⟨other, ok⟩
  · obtain ⟨rfl, rfl⟩ := Prod.mk.inj (Except.ok.inj ok)
    have same := operatorLength_append nonempty calm fits
    rw [← same] at some ⊢
    rw [if_pos some]
  · have none : operatorLength (c :: y ++ a) = 0 := by simpa using other
    have same := operatorLength_append (a := a) nonempty calm (by omega)
    rw [none] at same
    rw [if_neg (by simpa using same)]
    exact ok

end Restyle.Lexer
