import Mathlib.Data.List.Infix
import Restyle.Proofs.Lexer.Cuts

/-!
# How far scanners look

A lexeme that ends inside `x` does not depend on what follows `x`, as long as that starts with a
character that continues no lexeme (`Inert`). Three lexemes ask for more: whitespace, which ends
before the first other character, a line comment, which ends before a line end, and `<<<`, which is
an operator only if no heredoc starts there.
-/

namespace Restyle

namespace Text
variable {stop : Text → Bool} {t : Text} {n k : Nat}

theorem seek?_go_eq_some : seek?.go stop t n = some k ↔
    n ≤ k ∧ k < n + t.length ∧ stop (t.drop (k - n)) = true ∧
      ∀ i < k - n, stop (t.drop i) = false := by
  induction t generalizing n with
  | nil => simp [seek?.go]; omega
  | cons c rest ih =>
    rw [seek?.go]
    split
    · rename_i stopped
      constructor
      · intro found
        obtain rfl := Option.some.inj found
        simp [stopped]
      · rintro ⟨lower, -, -, before⟩
        by_contra different
        have later : n ≠ k := fun same => different (by rw [same])
        have goes := before 0 (by omega)
        rw [List.drop_zero, stopped] at goes
        cases goes
    · rename_i goes
      rw [ih]
      constructor
      · rintro ⟨lower, upper, stopped, before⟩
        have later : k - n = (k - (n + 1)) + 1 := by omega
        refine ⟨by omega, by simp only [List.length_cons]; omega, by rwa [later], fun i lt => ?_⟩
        cases i with
        | zero => simpa using goes
        | succ i => exact before i (by omega)
      · rintro ⟨lower, upper, stopped, before⟩
        have different : k ≠ n := by
          rintro rfl
          simp [goes] at stopped
        have later : k - n = (k - (n + 1)) + 1 := by omega
        rw [List.length_cons] at upper
        rw [later] at stopped
        exact ⟨by omega, by omega, stopped, fun i lt => before (i + 1) (by omega)⟩

theorem seek?_eq_some : seek? stop t = some k ↔
    k < t.length ∧ stop (t.drop k) = true ∧ ∀ i < k, stop (t.drop i) = false := by
  simp [seek?, seek?_go_eq_some]

theorem seek?_go_eq_none : seek?.go stop t n = none ↔ ∀ i < t.length, stop (t.drop i) = false := by
  induction t generalizing n with
  | nil => simp [seek?.go]
  | cons c rest ih =>
    rw [seek?.go]
    split
    · rename_i stopped
      refine ⟨by simp, fun never => ?_⟩
      have goes := never 0 (by simp)
      rw [List.drop_zero, stopped] at goes
      cases goes
    · rename_i goes
      rw [ih]
      constructor
      · intro never i lt
        cases i with
        | zero => simpa using goes
        | succ i => exact never i (by simpa using lt)
      · intro never i lt
        exact never (i + 1) (by simpa using lt)

theorem seek_eq : seek stop t = n ↔ n ≤ t.length ∧ (∀ i < n, stop (t.drop i) = false) ∧
    (n < t.length → stop (t.drop n) = true) := by
  unfold seek
  cases found : seek? stop t with
  | none =>
    have never := seek?_go_eq_none.mp found
    constructor
    · rintro rfl
      exact ⟨Nat.le_refl _, never, fun lt => (Nat.lt_irrefl _ lt).elim⟩
    · rintro ⟨le, -, here⟩
      by_contra different
      have lt : n < t.length := Nat.lt_of_le_of_ne le fun same => different same.symm
      have stopped := here lt
      rw [never n lt] at stopped
      cases stopped
  | some k =>
    obtain ⟨inside, here, before⟩ := seek?_eq_some.mp found
    constructor
    · rintro rfl
      exact ⟨by simp; omega, before, fun _ => here⟩
    · rintro ⟨le, before', here'⟩
      show k = n
      rcases Nat.lt_trichotomy k n with lt | same | gt
      · rw [before' k lt] at here
        cases here
      · exact same
      · have stopped := here' (by omega)
        rw [before n gt] at stopped
        cases stopped

end Text

namespace Lexer
variable {x a b s : Text} {c : Char} {n k : Nat}

/-- A character that continues no lexeme but whitespace. -/
def inert (c : Char) : Bool := !isWordChar c && !"=>*.?-:&|+</[".toList.contains c

def Inert (t : Text) : Prop := ∀ c ∈ t.head?, inert c = true

theorem not_inert_of_word (word : isWordChar c = true) : inert c = false := by simp [inert, word]

theorem isWordChar_of_isDigit (digit : c.isDigit = true) : isWordChar c = true := by
  simp [isWordChar, digit]

theorem Inert.any_head {p : Char → Bool} (calm : Inert b) (out : ∀ c, p c = true → inert c = false) :
    b.head?.any p = false := by
  cases b with
  | nil => rfl
  | cons c rest =>
    rw [List.head?_cons, Option.any_some, Bool.eq_false_iff]
    intro holds
    have still := calm c rfl
    rw [out c holds] at still
    cases still

/-- Marks of which only the first character can follow a lexeme. -/
theorem prefix_of_inert (solid : s.tail.any inert = false) (nonempty : x ≠ []) (calm : Inert b)
    (starts : s.isPrefixOf (x ++ b) = true) : s.isPrefixOf x = true := by
  rw [List.isPrefixOf_iff_prefix] at starts ⊢
  rcases List.prefix_or_prefix_of_prefix starts (List.prefix_append x b) with inside | ⟨more, rfl⟩
  · exact inside
  · obtain ⟨c, y, rfl⟩ := List.exists_cons_of_ne_nil nonempty
    cases more with
    | nil => simp
    | cons d more =>
      obtain ⟨rest, rfl⟩ := (List.prefix_append_right_inj _).mp starts
      exact (List.any_eq_false.mp solid d (by simp) (calm d rfl)).elim

theorem isPrefixOf_append (starts : s.isPrefixOf x = true) : s.isPrefixOf (x ++ a) = true := by
  rw [List.isPrefixOf_iff_prefix] at starts ⊢
  exact starts.trans (List.prefix_append x a)

theorem isPrefixOf_of_le (le : s.length ≤ x.length) (starts : s.isPrefixOf (x ++ a) = true) :
    s.isPrefixOf x = true := by
  rw [List.isPrefixOf_iff_prefix] at starts ⊢
  exact List.prefix_of_prefix_length_le starts (List.prefix_append x a) le

/-! ### Lengths -/

/-- An answer that ends inside a text does not depend on what follows the text. -/
def Reaches (f : Text → Nat) : Prop :=
  ∀ ⦃x a b : Text⦄, Inert b → f (x ++ a) ≤ x.length → f (x ++ b) = f (x ++ a)

theorem reaches_of_cons {f : Text → Nat} (start : ∀ b, Inert b → f b = 0)
    (step : ∀ c x a b, Inert b → f (c :: (x ++ a)) ≤ x.length + 1 →
      f (c :: (x ++ b)) = f (c :: (x ++ a))) : Reaches f := by
  intro x a b calm fits
  cases x with
  | nil =>
    have none : f a = 0 := by simpa using fits
    exact (start b calm).trans none.symm
  | cons c x => exact step c x a b calm fits

theorem reaches_takeWhile {p : Char → Bool} (out : ∀ c, p c = true → inert c = false) :
    Reaches fun t => (t.takeWhile p).length := by
  intro x a b calm
  show ((x ++ a).takeWhile p).length ≤ x.length →
    ((x ++ b).takeWhile p).length = ((x ++ a).takeWhile p).length
  induction x with
  | nil =>
    intro fits
    have none : (a.takeWhile p).length = 0 := by simpa using fits
    have stops := calm.any_head out
    rw [List.nil_append, List.nil_append, none]
    cases b with
    | nil => rfl
    | cons c rest => simp_all
  | cons c x ih =>
    intro fits
    simp only [List.cons_append, List.takeWhile_cons] at fits ⊢
    split
    · rename_i holds
      simp only [holds, if_true, List.length_cons] at fits ⊢
      rw [ih (by omega)]
    · rfl

theorem reaches_wordLength : Reaches wordLength := reaches_takeWhile fun _ => not_inert_of_word

namespace Number
variable {digit : Char → Bool} {t : Text}

theorem digitsLength_cons : digitsLength digit (c :: t) =
    if digit c = true then runLength digit (c :: t) else 0 := rfl

section Digits
variable (word : ∀ c, digit c = true → isWordChar c = true)
include word

theorem reaches_runLength : Reaches (runLength digit) := by
  refine reaches_takeWhile fun c holds => not_inert_of_word ?_
  rcases Bool.or_eq_true_iff.mp holds with isDigit | underscore
  · exact word c isDigit
  · rw [beq_iff_eq.mp underscore]
    decide

theorem digitsLength_of_inert (calm : Inert b) : digitsLength digit b = 0 := by
  rw [digitsLength, calm.any_head fun c holds => not_inert_of_word (word c holds)]
  rfl

theorem reaches_digitsLength : Reaches (digitsLength digit) := by
  refine reaches_of_cons (fun b => digitsLength_of_inert word) fun c x a b calm fits => ?_
  rw [digitsLength_cons] at fits
  rw [digitsLength_cons, digitsLength_cons]
  split
  · rename_i starts
    rw [if_pos starts] at fits
    exact reaches_runLength word (x := c :: x) calm fits
  · rfl

end Digits

theorem isWordChar_of_isHexDigit (digit : Text.isHexDigit c = true) : isWordChar c = true := by
  simp only [Text.isHexDigit, Bool.or_eq_true, Bool.and_eq_true, decide_eq_true_eq] at digit
  have word (letter : c.isUpper = true ∨ c.isLower = true) : isWordChar c = true := by
    have letter : c.isAlpha = true := Bool.or_eq_true_iff.mpr letter
    simp [isWordChar, isWordStart, letter]
  rcases digit with (digit | ⟨lower, upper⟩) | ⟨lower, upper⟩
  · exact isWordChar_of_isDigit digit
  · refine word (.inr (Bool.and_eq_true_iff.mpr ?_))
    exact ⟨decide_eq_true lower, decide_eq_true (Nat.le_trans upper (by decide))⟩
  · exact word (.inl (decide_eq_true ⟨lower, Nat.le_trans upper (by decide)⟩))

theorem isWordChar_of_isBinaryDigit (digit : isBinaryDigit c = true) : isWordChar c = true := by
  simp only [isBinaryDigit, Bool.or_eq_true, beq_iff_eq] at digit
  rcases digit with rfl | rfl <;> decide

def radixDigits (mark : Char) (t : Text) : Nat :=
  if mark == 'x' || mark == 'X' then digitsLength Text.isHexDigit t
  else if mark == 'b' || mark == 'B' then digitsLength isBinaryDigit t
  else 0

theorem reaches_radixDigits (mark : Char) : Reaches (radixDigits mark) := by
  intro x a b calm fits
  unfold radixDigits at fits ⊢
  split
  · rename_i hex
    rw [if_pos hex] at fits
    exact reaches_digitsLength (fun _ => isWordChar_of_isHexDigit) calm fits
  · rename_i notHex
    rw [if_neg notHex] at fits
    split
    · rename_i binary
      rw [if_pos binary] at fits
      exact reaches_digitsLength (fun _ => isWordChar_of_isBinaryDigit) calm fits
    · rfl

theorem radixLength_zero (mark : Char) : radixLength ('0' :: mark :: t) =
    if radixDigits mark t = 0 then 0 else radixDigits mark t + 2 := rfl

theorem radixLength_of_ne (other : c ≠ '0') : radixLength (c :: t) = 0 := by
  unfold radixLength
  split
  · rename_i same
    exact (other (List.cons.inj same).1).elim
  · rfl

theorem reaches_radixLength : Reaches radixLength := by
  have outside : ∀ c t, inert c = true → radixLength (c :: t) = 0 ∧ radixLength ('0' :: c :: t) = 0 := by
    intro c t still
    refine ⟨radixLength_of_ne ?_, ?_⟩
    · rintro rfl
      cases still
    · have plain : radixDigits c t = 0 := by
        unfold radixDigits
        split
        · rename_i hex
          simp only [Bool.or_eq_true, beq_iff_eq] at hex
          rcases hex with rfl | rfl <;> cases still
        · split
          · rename_i binary
            simp only [Bool.or_eq_true, beq_iff_eq] at binary
            rcases binary with rfl | rfl <;> cases still
          · rfl
      rw [radixLength_zero, plain]
      rfl
  refine reaches_of_cons (fun b calm => ?_) fun c x a b calm fits => ?_
  · cases b with
    | nil => rfl
    | cons c rest => exact (outside c rest (calm c rfl)).1
  · by_cases zero : c = '0'
    · subst zero
      cases x with
      | nil =>
        have here : radixLength ('0' :: b) = 0 := by
          cases b with
          | nil => rfl
          | cons c rest => exact (outside c rest (calm c rfl)).2
        have there : radixLength ('0' :: a) = 0 := by
          cases a with
          | nil => rfl
          | cons mark rest =>
            rw [List.nil_append, radixLength_zero, List.length_nil] at fits
            rw [radixLength_zero]
            split at fits
            · rename_i none
              rw [if_pos none]
            · omega
        exact here.trans there.symm
      | cons mark x =>
        simp only [List.cons_append, radixLength_zero, List.length_cons] at fits ⊢
        have fits : radixDigits mark (x ++ a) ≤ x.length := by
          split at fits <;> omega
        rw [reaches_radixDigits mark calm fits]
    · rw [radixLength_of_ne zero, radixLength_of_ne zero]

theorem fractionLength_point : fractionLength ('.' :: t) =
    if digitsLength Char.isDigit t = 0 then 0 else digitsLength Char.isDigit t + 1 := rfl

theorem fractionLength_of_ne (other : c ≠ '.') : fractionLength (c :: t) = 0 := by
  unfold fractionLength
  split
  · rename_i same
    exact (other (List.cons.inj same).1).elim
  · rfl

theorem reaches_fractionLength : Reaches fractionLength := by
  refine reaches_of_cons (fun b calm => ?_) fun c x a b calm fits => ?_
  · cases b with
    | nil => rfl
    | cons c rest =>
      refine fractionLength_of_ne ?_
      rintro rfl
      have still := calm '.' rfl
      cases still
  · by_cases point : c = '.'
    · subst point
      rw [fractionLength_point] at fits
      have fits : digitsLength Char.isDigit (x ++ a) ≤ x.length := by
        split at fits <;> omega
      rw [fractionLength_point, fractionLength_point,
        reaches_digitsLength (fun _ => isWordChar_of_isDigit) calm fits]
    · rw [fractionLength_of_ne point, fractionLength_of_ne point]

def exponentDigits (t : Text) : Nat := digitsLength Char.isDigit (t.drop (signLength t))

theorem exponentLength_cons {mark : Char} : exponentLength (mark :: t) =
    if ((mark == 'e' || mark == 'E') && exponentDigits t != 0) = true
      then exponentDigits t + signLength t + 1 else 0 := rfl

theorem signLength_of_inert (calm : Inert b) : signLength b = 0 := by
  cases b with
  | nil => rfl
  | cons c rest =>
    have still := calm c rfl
    simp only [signLength]
    split
    · rename_i sign
      simp only [Bool.or_eq_true, beq_iff_eq] at sign
      rcases sign with rfl | rfl <;> cases still
    · rfl

theorem exponentDigits_append (calm : Inert b)
    (fits : exponentDigits (x ++ a) ≠ 0 → exponentDigits (x ++ a) + signLength (x ++ a) ≤ x.length) :
    exponentDigits (x ++ b) = exponentDigits (x ++ a) ∧
      (exponentDigits (x ++ a) ≠ 0 → signLength (x ++ b) = signLength (x ++ a)) := by
  cases x with
  | nil =>
    have there : exponentDigits a = 0 := by
      by_contra some
      have none := fits some
      rw [List.nil_append, List.length_nil] at none
      omega
    have here : exponentDigits b = 0 := by
      rw [exponentDigits, signLength_of_inert calm]
      exact digitsLength_of_inert (fun _ => isWordChar_of_isDigit) calm
    exact ⟨here.trans there.symm, fun some => (some there).elim⟩
  | cons c x =>
    have sign : ∀ t, signLength (c :: t) = signLength [c] := fun t => rfl
    have bound : signLength [c] ≤ 1 := by
      simp only [signLength]
      split <;> omega
    have split : ∀ t, (c :: (x ++ t)).drop (signLength [c]) = (c :: x).drop (signLength [c]) ++ t := by
      intro t
      rw [← List.cons_append, List.drop_append_of_le_length (by simp; omega)]
    refine ⟨?_, fun _ => rfl⟩
    simp only [List.cons_append, exponentDigits, sign, split, List.length_cons] at fits ⊢
    have digits : Reaches (digitsLength Char.isDigit) :=
      reaches_digitsLength fun _ => isWordChar_of_isDigit
    refine digits calm ?_
    rw [List.length_drop, List.length_cons]
    rcases Nat.eq_zero_or_pos (digitsLength Char.isDigit ((c :: x).drop (signLength [c]) ++ a))
      with none | some
    · omega
    · have room := fits (by omega)
      omega

theorem reaches_exponentLength : Reaches exponentLength := by
  refine reaches_of_cons (fun b calm => ?_) fun c x a b calm fits => ?_
  · cases b with
    | nil => rfl
    | cons c rest =>
      have still := calm c rfl
      have other : (c == 'e' || c == 'E') = false := by
        rw [Bool.eq_false_iff]
        intro mark
        simp only [Bool.or_eq_true, beq_iff_eq] at mark
        rcases mark with rfl | rfl <;> cases still
      rw [exponentLength_cons, other]
      rfl
  · rw [exponentLength_cons] at fits
    rw [exponentLength_cons, exponentLength_cons]
    by_cases mark : (c == 'e' || c == 'E') = true
    · simp only [mark, Bool.true_and, bne_iff_ne] at fits ⊢
      obtain ⟨digits, sign⟩ := exponentDigits_append (x := x) (a := a) calm (by
        intro some
        rw [if_pos some] at fits
        omega)
      rw [digits]
      split
      · rename_i some
        rw [sign some]
      · rfl
    · simp [mark]

theorem reaches_decimalLength : Reaches decimalLength := by
  intro x a b calm fits
  simp only [decimalLength] at fits ⊢
  have drop : ∀ n ≤ x.length, ∀ t : Text, (x ++ t).drop n = x.drop n ++ t := fun n le t =>
    List.drop_append_of_le_length le
  have le₁ : runLength Char.isDigit (x ++ a) ≤ x.length := by omega
  have whole : runLength Char.isDigit (x ++ b) = runLength Char.isDigit (x ++ a) :=
    reaches_runLength (fun _ => isWordChar_of_isDigit) calm le₁
  rw [whole, drop _ le₁]
  rw [drop _ le₁] at fits
  have le₂ : fractionLength (x.drop (runLength Char.isDigit (x ++ a)) ++ a) ≤
      (x.drop (runLength Char.isDigit (x ++ a))).length := by
    rw [List.length_drop]
    omega
  rw [drop _ le₁, reaches_fractionLength calm le₂]
  rw [drop _ (by omega)] at fits
  rw [drop _ (by omega), drop _ (by omega), reaches_exponentLength calm]
  rw [List.length_drop]
  omega

theorem reaches_length : Reaches length := by
  intro x a b calm fits
  unfold length at fits ⊢
  dsimp only at fits ⊢
  have based : radixLength (x ++ b) = radixLength (x ++ a) := by
    refine reaches_radixLength calm ?_
    split at fits <;> omega
  rw [based]
  split
  · rename_i none
    rw [if_pos none] at fits
    exact reaches_decimalLength calm fits
  · rfl

end Number

/-! ### Operators, strings and comments -/

theorem find?_of_narrower {α : Type} {p q : α → Bool} {l : List α} {y : α}
    (narrower : ∀ z ∈ l, q z = true → p z = true) (found : l.find? p = some y) (holds : q y = true) :
    l.find? q = some y := by
  induction l with
  | nil => cases found
  | cons z l ih =>
    rw [List.find?_cons] at found ⊢
    cases here : p z with
    | true =>
      rw [here] at found
      obtain rfl := Option.some.inj found
      rw [holds]
    | false =>
      rw [here] at found
      have not : q z = false := by
        rw [Bool.eq_false_iff]
        intro yes
        rw [narrower z List.mem_cons_self yes] at here
        cases here
      rw [not]
      exact ih (fun w member => narrower w (List.mem_cons_of_mem _ member)) found

theorem solid_of_operators : ∀ op ∈ operators, op.tail.any inert = false := by decide

theorem operatorLength_append (nonempty : x ≠ []) (calm : Inert b)
    (fits : operatorLength (x ++ a) ≤ x.length) : operatorLength (x ++ b) = operatorLength (x ++ a) := by
  have narrower : ∀ op ∈ operators, op.isPrefixOf (x ++ b) = true → op.isPrefixOf (x ++ a) = true :=
    fun op member starts => isPrefixOf_append
      (prefix_of_inert (solid_of_operators op member) nonempty calm starts)
  unfold operatorLength at fits ⊢
  cases found : operators.find? (·.isPrefixOf (x ++ a)) with
  | some op =>
    simp only [found] at fits ⊢
    have starts : op.isPrefixOf (x ++ a) = true := by simpa using List.find?_some found
    rw [find?_of_narrower narrower found (isPrefixOf_append (isPrefixOf_of_le fits starts))]
  | none =>
    have none : operators.find? (·.isPrefixOf (x ++ b)) = none := by
      rw [List.find?_eq_none] at found ⊢
      exact fun op member starts => found op member (narrower op member starts)
    simp only [none]
    obtain ⟨c, y, rfl⟩ := List.exists_cons_of_ne_nil nonempty
    rfl

theorem Quoted.closing?_cons {quote : Char} (plain : c ≠ '\\') :
    Quoted.closing? quote (c :: x) n =
      if (c == quote) = true then some (n + 1) else Quoted.closing? quote x (n + 1) := by
  rw [Quoted.closing?]
  · exact fun same => (plain same).elim
  · exact fun _ _ same => (plain same).elim

theorem Quoted.closing?_append {quote : Char} (found : Quoted.closing? quote (x ++ a) n = some k)
    (fits : k ≤ n + x.length) : Quoted.closing? quote (x ++ b) n = some k := by
  induction length : x.length using Nat.strong_induction_on generalizing x n with
  | _ m ih =>
    subst length
    cases x with
    | nil =>
      have bounds := Quoted.closing?_bounds found
      simp only [List.length_nil] at fits
      omega
    | cons c x =>
      simp only [List.length_cons] at fits
      by_cases escape : c = '\\'
      · subst escape
        cases x with
        | nil =>
          -- The backslash would take a character of what follows along.
          cases a with
          | nil => simp [Quoted.closing?] at found
          | cons d a =>
            simp only [List.cons_append, List.nil_append, Quoted.closing?] at found
            have bounds := Quoted.closing?_bounds found
            simp only [List.length_nil] at fits
            omega
        | cons d x =>
          simp only [List.cons_append, Quoted.closing?] at found ⊢
          exact ih x.length (by simp only [List.length_cons]; omega) found
             (by simp only [List.length_cons] at fits; omega) rfl
      · simp only [List.cons_append, Quoted.closing?_cons escape] at found ⊢
        split
        · rename_i same
          rwa [if_pos same] at found
        · rename_i different
          rw [if_neg different] at found
          exact ih x.length (by simp) found (by omega) rfl

theorem Comment.blockLength?_append (long : 2 ≤ x.length)
    (found : Comment.blockLength? (x ++ a) = some n) (fits : n ≤ x.length) :
    Comment.blockLength? (x ++ b) = some n := by
  unfold Comment.blockLength? at found ⊢
  rw [List.drop_append_of_le_length long] at found ⊢
  obtain ⟨k, sought, rfl⟩ := Option.map_eq_some_iff.mp found
  obtain ⟨inside, here, before⟩ := Text.seek?_eq_some.mp sought
  have rest : ∀ i ≤ k, ∀ t : Text, (x.drop 2 ++ t).drop i = x.drop (2 + i) ++ t := by
    intro i le t
    rw [List.drop_append_of_le_length (by rw [List.length_drop]; omega), List.drop_drop]
  have room : ∀ i ≤ k, "*/".toList.length ≤ (x.drop (2 + i)).length := by
    intro i le
    rw [List.length_drop]
    show 2 ≤ _
    omega
  refine Option.map_eq_some_iff.mpr ⟨k, Text.seek?_eq_some.mpr ⟨?_, ?_, fun i lt => ?_⟩, rfl⟩
  · rw [List.length_append, List.length_drop]
    omega
  · rw [rest k (Nat.le_refl _)] at here ⊢
    exact isPrefixOf_append (isPrefixOf_of_le (room k (Nat.le_refl _)) here)
  · have goes := before i lt
    rw [rest i (Nat.le_of_lt lt)] at goes ⊢
    rw [Comment.closesBlock, Bool.eq_false_iff] at goes ⊢
    exact fun starts => goes (isPrefixOf_append (isPrefixOf_of_le (room i (Nat.le_of_lt lt)) starts))

theorem Comment.isDoc_append (long : 4 ≤ x.length) : Comment.isDoc (x ++ a) = Comment.isDoc x := by
  have first : ∀ (c₁ c₂ c₃ c₄ : Char) (t : Text), Comment.isDoc (c₁ :: c₂ :: c₃ :: c₄ :: t) =
      (c₁ == '/' && c₂ == '*' && c₃ == '*' && Text.isSpace c₄) := by
    intro c₁ c₂ c₃ c₄ t
    unfold Comment.isDoc
    split
    · rename_i same
      simp_all
    · rename_i other
      rw [eq_comm, Bool.eq_false_iff]
      intro doc
      simp only [Bool.and_eq_true, beq_iff_eq] at doc
      exact other c₄ t (by rw [doc.1.1.1, doc.1.1.2, doc.1.2])
  match x, long with
  | c₁ :: c₂ :: c₃ :: c₄ :: rest, _ => simp only [List.cons_append, first]

theorem Comment.endsLine_cons : Comment.endsLine (c :: x) =
    (c == '\n' || c == '\r' || c == '?' && x.head? == some '>') := by
  unfold Comment.endsLine
  split
  · rename_i same
    obtain ⟨rfl, rfl⟩ := List.cons.inj same
    rfl
  · rename_i c' _ notTag same
    obtain ⟨rfl, rfl⟩ := List.cons.inj same
    by_cases question : c = '?'
    · subst question
      cases x with
      | nil => rfl
      | cons d rest =>
        have other : d ≠ '>' := by
          rintro rfl
          exact notTag rest rfl rfl
        simp [other]
    · simp [question]
  · rename_i same
    cases same

def Comment.Ends (t : Text) : Prop := t = [] ∨ Comment.endsLine t = true

theorem Comment.endsLine_append (nonempty : x ≠ []) (calm : Inert b)
    (goes : Comment.endsLine (x ++ a) = false) : Comment.endsLine (x ++ b) = false := by
  obtain ⟨c, y, rfl⟩ := List.exists_cons_of_ne_nil nonempty
  rw [List.cons_append, Comment.endsLine_cons] at goes ⊢
  cases y with
  | nil =>
    have other : (b.head? == some '>') = false := by
      rw [beq_eq_false_iff_ne]
      intro same
      have still := calm '>' same
      cases still
    simp_all
  | cons d y => exact goes

theorem Comment.lineLength_append (calm : Inert b) (is : Comment.lineLength (x ++ a) = n)
    (fits : n ≤ x.length) (ends : Comment.Ends ((x ++ a).drop n) → Comment.Ends ((x ++ b).drop n)) :
    Comment.lineLength (x ++ b) = n := by
  obtain ⟨le, before, here⟩ := Text.seek_eq.mp is
  refine Text.seek_eq.mpr ⟨?_, fun i lt => ?_, fun lt => ?_⟩
  · rw [List.length_append]
    omega
  · have goes := before i lt
    rw [List.drop_append_of_le_length (by omega)] at goes ⊢
    refine Comment.endsLine_append ?_ calm goes
    rw [Ne, List.drop_eq_nil_iff]
    omega
  · have ended : Comment.Ends ((x ++ a).drop n) := by
      rcases Nat.lt_or_ge n (x ++ a).length with inside | past
      · exact .inr (here inside)
      · exact .inl (List.drop_eq_nil_iff.mpr past)
    rcases ends ended with empty | stops
    · rw [List.drop_eq_nil_iff] at empty
      omega
    · exact stops

end Lexer

end Restyle
