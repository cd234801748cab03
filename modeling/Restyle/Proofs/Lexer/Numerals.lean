import Mathlib.Order.Bounds.Basic
import Restyle.Proofs.Lexer.Heredoc
import Restyle.Proofs.Lexer.Longest
import Restyle.Proofs.Text.Utf8

/-!
# The grammar of numbers

`literal` is the language of number literals. The scanner looks for the parts of a number one after
another and never goes back, but what it takes is the longest literal at the front of the text.
-/

namespace Restyle.Lexer.Number
open Computability

variable {t x y : Text} {c : Char} {digit : Char → Bool} {alphabet : String}

def digits (alphabet : String) : Language Char := oneOf alphabet * (oneOf (alphabet ++ "_"))∗

def radix : Language Char :=
  oneOf "0" * (oneOf "xX" * digits "0123456789abcdefABCDEF") + oneOf "0" * (oneOf "bB" * digits "01")

def fraction : Language Char := oneOf "." * digits "0123456789"

def exponent : Language Char := oneOf "eE" * ((1 + oneOf "+-") * digits "0123456789")

/-- The digits before the point or those behind it may be missing, but not both. -/
def decimal : Language Char :=
  digits "0123456789" * (1 + fraction) * (1 + exponent) + fraction * (1 + exponent)

def literal : Language Char := radix + decimal

/-! ### Runs of digits -/

def Spells (digit : Char → Bool) (alphabet : String) : Prop :=
  ∀ c, digit c = true ↔ c ∈ alphabet.toList

theorem ascii_isHexDigit : Text.IsAscii Text.isHexDigit := by
  intro c digit
  simp only [Text.isHexDigit, Char.isDigit, Bool.or_eq_true, Bool.and_eq_true, decide_eq_true_eq,
    Char.le_def, UInt32.le_iff_toNat_le] at digit
  have bound : c.val.toNat ≤ 102 := by
    rcases digit with (⟨-, upper⟩ | ⟨-, upper⟩) | ⟨-, upper⟩
    · exact Nat.le_trans upper (by decide)
    · exact upper
    · exact Nat.le_trans upper (by decide)
  exact Nat.lt_of_le_of_lt bound (by decide)

theorem ascii_isDigit : Text.IsAscii Char.isDigit := fun c digit =>
  ascii_isHexDigit c (by simp [Text.isHexDigit, digit])

theorem ascii_isBinaryDigit : Text.IsAscii isBinaryDigit := fun c digit =>
  ascii_isDigit c (by
    simp only [isBinaryDigit, Bool.or_eq_true, beq_iff_eq] at digit
    rcases digit with rfl | rfl <;> rfl)

def isNarrow (alphabet : String) : Bool := alphabet.toList.all fun c => c.toNat < 128

theorem lt_of_isNarrow (narrow : isNarrow alphabet = true) (member : c ∈ alphabet.toList) :
    c.toNat < 128 := of_decide_eq_true (List.all_eq_true.mp narrow c member)

theorem spells_of_table (ascii : Text.IsAscii digit) (narrow : isNarrow alphabet = true)
    (table : (List.range 128).all (fun n =>
      digit (Char.ofNat n) == alphabet.toList.contains (Char.ofNat n)) = true) :
    Spells digit alphabet := by
  intro c
  by_cases small : c.toNat < 128
  · have row := List.all_eq_true.mp table c.toNat (List.mem_range.mpr small)
    rw [Char.ofNat_toNat, beq_iff_eq] at row
    rw [row, List.contains_iff_mem]
  · exact ⟨fun here => (small (ascii c here)).elim,
      fun member => (small (lt_of_isNarrow narrow member)).elim⟩

theorem spells_isDigit : Spells Char.isDigit "0123456789" :=
  spells_of_table ascii_isDigit rfl (by decide +kernel)

theorem spells_isHexDigit : Spells Text.isHexDigit "0123456789abcdefABCDEF" :=
  spells_of_table ascii_isHexDigit rfl (by decide +kernel)

theorem spells_isBinaryDigit : Spells isBinaryDigit "01" :=
  spells_of_table ascii_isBinaryDigit rfl (by decide +kernel)

theorem mem_kstar_oneOf : x ∈ (oneOf alphabet)∗ ↔ ∀ c ∈ x, c ∈ alphabet.toList := by
  constructor
  · rintro ⟨words, rfl, each⟩ c member
    obtain ⟨word, isWord, inWord⟩ := List.mem_flatten.mp member
    obtain ⟨d, inAlphabet, rfl⟩ := each word isWord
    rwa [List.mem_singleton.mp inWord]
  · intro inside
    refine ⟨x.map ([·]), (List.flatMap_singleton' x).symm, fun word isWord => ?_⟩
    obtain ⟨c, member, rfl⟩ := List.mem_map.mp isWord
    exact ⟨c, inside c member, rfl⟩

theorem mem_digits (spells : Spells digit alphabet) : x ∈ digits alphabet ↔
    ∃ c rest, x = c :: rest ∧ digit c = true ∧ ∀ d ∈ rest, (digit d || d == '_') = true := by
  have inside : ∀ d, (digit d || d == '_') = true ↔ d ∈ (alphabet ++ "_").toList := by
    intro d
    rw [Bool.or_eq_true, spells d, String.toList_append, List.mem_append, beq_iff_eq]
    simp
  have first : ∀ c, digit c = true ↔ c ∈ alphabet.toList := spells
  simp only [digits, mem_oneOf_mul, mem_kstar_oneOf, first, inside]

theorem run_of_mem_digits (spells : Spells digit alphabet) (member : x ∈ digits alphabet) (y : Text) :
    digitsLength digit (x ++ y) = runLength digit (x ++ y) ∧
      ∀ d ∈ x, (digit d || d == '_') = true := by
  obtain ⟨c, rest, rfl, first, more⟩ := (mem_digits spells).mp member
  refine ⟨?_, by simpa [first] using more⟩
  rw [List.cons_append, digitsLength_cons, if_pos first]

theorem longest_digits (spells : Spells digit alphabet) :
    Longest (digits alphabet) (digitsLength digit) where
  fits := digitsLength_le digit
  mem t some := by
    cases t with
    | nil => exact (some rfl).elim
    | cons c t =>
      rw [digitsLength_cons] at some ⊢
      split at some
      · rename_i first
        have run : (c :: t).takeWhile (fun d => digit d || d == '_') =
            c :: t.takeWhile fun d => digit d || d == '_' := by simp [first]
        have taken := List.prefix_iff_eq_take.mp
          (List.takeWhile_prefix (fun d => digit d || d == '_') (l := c :: t))
        rw [if_pos first, runLength, ← taken, run]
        refine (mem_digits spells).mpr ⟨c, _, rfl, first, fun d member => ?_⟩
        exact List.mem_takeWhile_imp (p := fun d => digit d || d == '_') member
      · exact (some rfl).elim
  longest x y member := by
    obtain ⟨run, inside⟩ := run_of_mem_digits spells member y
    rw [run, runLength, List.takeWhile_append_of_pos inside, List.length_append]
    omega

theorem digitsLength_stops (spells : Spells digit alphabet) (member : x ∈ 1 + digits alphabet)
    (stops : y.head?.any (fun d => digit d || d == '_') = false) :
    digitsLength digit (x ++ y) = x.length := by
  rcases member with rfl | member
  · have none : y.head?.any digit = false := by
      cases y with
      | nil => rfl
      | cons d y => simp_all
    rw [List.nil_append, digitsLength, none]
    rfl
  · obtain ⟨run, inside⟩ := run_of_mem_digits spells member y
    rw [run, runLength, (Text.takeWhile_append_of_head inside stops).1]

/-! ### The parts of a number -/

theorem marked_marked_zero (marks : String) (f : Text → Nat) (mark : Char) (t : Text) :
    Longest.marked "0" (Longest.marked marks f) ('0' :: mark :: t) =
      if mark ∈ marks.toList ∧ f t ≠ 0 then f t + 2 else 0 := by
  rw [Longest.marked, Longest.marked]
  by_cases both : mark ∈ marks.toList ∧ f t ≠ 0
  · rw [if_pos both, if_pos both, if_pos ⟨by decide, by omega⟩]
  · rw [if_neg both, if_neg both, if_neg (by simp)]

theorem radixLength_eq (t : Text) : radixLength t =
    max (Longest.marked "0" (Longest.marked "xX" (digitsLength Text.isHexDigit)) t)
      (Longest.marked "0" (Longest.marked "bB" (digitsLength isBinaryDigit)) t) := by
  cases t with
  | nil => rfl
  | cons c t =>
    by_cases zero : c = '0'
    · subst zero
      cases t with
      | nil => rfl
      | cons mark t =>
        rw [radixLength_zero, marked_marked_zero, marked_marked_zero, radixDigits]
        by_cases hex : mark = 'x' ∨ mark = 'X'
        · have other : ¬ (mark = 'b' ∨ mark = 'B') := by rcases hex with rfl | rfl <;> decide
          simp [hex, other, ite_not]
        · by_cases binary : mark = 'b' ∨ mark = 'B'
          · simp [hex, binary, ite_not]
          · simp [hex, binary]
    · have other : c ∉ "0".toList := by simpa using zero
      rw [radixLength_of_ne zero, Longest.marked_of_notMem other, Longest.marked_of_notMem other]
      rfl

theorem longest_radix : Longest radix radixLength := by
  have hex := ((longest_digits spells_isHexDigit).oneOf_mul "xX" nil_notMem_oneOf_mul).oneOf_mul "0"
    nil_notMem_oneOf_mul
  have binary := ((longest_digits spells_isBinaryDigit).oneOf_mul "bB" nil_notMem_oneOf_mul).oneOf_mul
    "0" nil_notMem_oneOf_mul
  rw [funext radixLength_eq]
  exact hex.add binary

theorem fractionLength_eq (t : Text) :
    fractionLength t = Longest.marked "." (digitsLength Char.isDigit) t := by
  cases t with
  | nil => rfl
  | cons c t =>
    by_cases point : c = '.'
    · subst point
      rw [fractionLength_point, Longest.marked]
      simp [ite_not]
    · rw [fractionLength_of_ne point, Longest.marked_of_notMem (by simpa using point)]

theorem longest_fraction : Longest fraction fractionLength := by
  rw [funext fractionLength_eq]
  exact (longest_digits spells_isDigit).oneOf_mul "." nil_notMem_oneOf_mul

theorem exponentLength_eq (t : Text) : exponentLength t = Longest.marked "eE" (fun t =>
    max (digitsLength Char.isDigit t) (Longest.marked "+-" (digitsLength Char.isDigit) t)) t := by
  have body : ∀ t, max (digitsLength Char.isDigit t)
      (Longest.marked "+-" (digitsLength Char.isDigit) t) =
        if exponentDigits t = 0 then 0 else exponentDigits t + signLength t := by
    intro t
    cases t with
    | nil => rfl
    | cons c t =>
      rw [exponentDigits, signLength, Longest.marked]
      by_cases sign : c = '+' ∨ c = '-'
      · have none : digitsLength Char.isDigit (c :: t) = 0 := by
          rcases sign with rfl | rfl <;> rfl
        simp [sign, none, ite_not]
      · simp [sign]
  cases t with
  | nil => rfl
  | cons mark t =>
    rw [exponentLength_cons, Longest.marked, body]
    by_cases none : exponentDigits t = 0
    · simp [none]
    · simp [none]

theorem longest_exponent : Longest exponent exponentLength := by
  have plain := longest_digits spells_isDigit
  have signed := plain.add (plain.oneOf_mul "+-" nil_notMem_oneOf_mul)
  rw [funext exponentLength_eq, exponent, add_mul, one_mul]
  exact signed.oneOf_mul "eE" (not_or.mpr ⟨nil_notMem_oneOf_mul, nil_notMem_oneOf_mul⟩)

/-! ### One part after another -/

theorem head_of_fraction (member : x ∈ fraction) : x.head? = some '.' := by
  obtain ⟨c, rest, rfl, point, -⟩ := mem_oneOf_mul.mp member
  simpa using point

theorem head_of_exponent (member : x ∈ exponent) : x.head? = some 'e' ∨ x.head? = some 'E' := by
  obtain ⟨c, rest, rfl, mark, -⟩ := mem_oneOf_mul.mp member
  simpa using mark

def remainder : Language Char := (1 + fraction) * (1 + exponent)

theorem head_of_remainder (member : x ∈ remainder) (nonempty : x ≠ []) :
    x.head? = some '.' ∨ x.head? = some 'e' ∨ x.head? = some 'E' := by
  obtain ⟨y, inY, z, inZ, rfl⟩ := Language.mem_mul.mp member
  rcases inY with rfl | inY
  · rcases inZ with rfl | inZ
    · exact (nonempty rfl).elim
    · exact .inr (head_of_exponent inZ)
  · rw [List.head?_append, head_of_fraction inY]
    exact .inl rfl

theorem fractionLength_stops (member : x ∈ 1 + fraction) (mark : c = 'e' ∨ c = 'E') :
    fractionLength (x ++ c :: y) = x.length := by
  rcases member with rfl | member
  · refine fractionLength_of_ne ?_
    rcases mark with rfl | rfl <;> decide
  · obtain ⟨point, run, rfl, isPoint, inRun⟩ := mem_oneOf_mul.mp member
    obtain rfl : point = '.' := by simpa using isPoint
    have length : digitsLength Char.isDigit (run ++ c :: y) = run.length := by
      refine digitsLength_stops spells_isDigit (.inr inRun) ?_
      rcases mark with rfl | rfl <;> rfl
    have nonempty : run.length ≠ 0 := fun empty =>
      nil_notMem_oneOf_mul (List.length_eq_zero_iff.mp empty ▸ inRun)
    rw [List.cons_append, fractionLength_point, length, if_neg nonempty, List.length_cons]

theorem longest_remainder : Longest remainder fun t =>
    fractionLength t + exponentLength (t.drop (fractionLength t)) := by
  refine longest_fraction.mul longest_exponent fun x inX y inY nonempty z => ?_
  obtain ⟨c, rest, rfl, mark, -⟩ := mem_oneOf_mul.mp inY
  exact fractionLength_stops inX (by simpa using mark)

theorem longest_parts : Longest ((1 + digits "0123456789") * (1 + remainder)) fun t =>
    digitsLength Char.isDigit t + (fractionLength (t.drop (digitsLength Char.isDigit t)) +
      exponentLength ((t.drop (digitsLength Char.isDigit t)).drop
        (fractionLength (t.drop (digitsLength Char.isDigit t))))) := by
  refine (longest_digits spells_isDigit).mul longest_remainder fun x inX y inY nonempty z => ?_
  refine digitsLength_stops spells_isDigit inX ?_
  rw [List.head?_append_of_ne_nil _ nonempty]
  rcases head_of_remainder inY nonempty with head | head | head <;> rw [head] <;> rfl

theorem parts_of_decimal (member : x ∈ decimal) :
    x ∈ (1 + digits "0123456789") * (1 + remainder) := by
  rcases member with whole | pointed
  · rw [mul_assoc] at whole
    obtain ⟨a, inA, b, inB, rfl⟩ := Language.mem_mul.mp whole
    exact Language.append_mem_mul (.inr inA) (.inr inB)
  · obtain ⟨a, inA, b, inB, rfl⟩ := Language.mem_mul.mp pointed
    exact Language.append_mem_mul (a := []) (.inl rfl)
      (.inr (Language.append_mem_mul (.inr inA) inB))

theorem decimal_of_parts (member : x ∈ (1 + digits "0123456789") * (1 + remainder))
    (starts : x.head?.any Char.isDigit = true ∨ x.head? = some '.') : x ∈ decimal := by
  obtain ⟨a, inA, b, inB, rfl⟩ := Language.mem_mul.mp member
  have inB : b ∈ remainder := by
    rcases inB with rfl | inB
    · exact Language.append_mem_mul (a := []) (b := []) (.inl rfl) (.inl rfl)
    · exact inB
  rcases inA with rfl | inA
  · -- without digits before the point there is a fraction, since an exponent alone starts otherwise
    rw [List.nil_append] at starts ⊢
    obtain ⟨f, inF, e, inE, rfl⟩ := Language.mem_mul.mp inB
    rcases inF with rfl | inF
    · rcases inE with rfl | inE
      · simp at starts
      · rcases head_of_exponent inE with head | head <;> simp [head] at starts
    · exact .inr (Language.append_mem_mul inF inE)
  · refine .inl ?_
    rw [mul_assoc]
    exact Language.append_mem_mul inA inB

theorem exists_radixDigits (based : radixLength t ≠ 0) :
    ∃ mark rest, t = '0' :: mark :: rest ∧ radixDigits mark rest ≠ 0 ∧
      radixLength t = radixDigits mark rest + 2 := by
  cases t with
  | nil => exact (based rfl).elim
  | cons c t =>
    obtain rfl : c = '0' := by
      by_contra zero
      exact based (radixLength_of_ne zero)
    cases t with
    | nil => exact (based rfl).elim
    | cons mark rest =>
      rw [radixLength_zero] at based ⊢
      have some : radixDigits mark rest ≠ 0 := fun none => based (if_pos none)
      exact ⟨mark, rest, rfl, some, if_neg some⟩

theorem decimalLength_le_radixLength (based : radixLength t ≠ 0) :
    decimalLength t ≤ radixLength t := by
  obtain ⟨mark, rest, rfl, some, length⟩ := exists_radixDigits based
  -- a base mark is no part of a decimal, so only the zero is one
  have single : decimalLength ('0' :: mark :: rest) = 1 := by
    unfold radixDigits at some
    split at some
    · rename_i hex
      simp only [Bool.or_eq_true, beq_iff_eq] at hex
      rcases hex with rfl | rfl <;> rfl
    · split at some
      · rename_i binary
        simp only [Bool.or_eq_true, beq_iff_eq] at binary
        rcases binary with rfl | rfl <;> rfl
      · exact (some rfl).elim
  omega

theorem length_eq_max (t : Text) : length t = max (radixLength t) (decimalLength t) := by
  by_cases based : radixLength t = 0
  · simp [length, based]
  · simp [length, based, decimalLength_le_radixLength based]

/-! ### Bytes of a number -/

def Narrow (l : Language Char) : Prop := ∀ x ∈ l, ∀ c ∈ x, c.toNat < 128

namespace Narrow
variable {l m : Language Char}

theorem one : Narrow 1 := by
  rintro x rfl c member
  cases member

theorem oneOf (narrow : isNarrow alphabet = true) : Narrow (oneOf alphabet) := by
  rintro x ⟨c, inAlphabet, rfl⟩ d member
  rw [List.mem_singleton.mp member]
  exact lt_of_isNarrow narrow inAlphabet

theorem add (first : Narrow l) (second : Narrow m) : Narrow (l + m) := fun x member =>
  member.elim (first x) (second x)

theorem mul (first : Narrow l) (second : Narrow m) : Narrow (l * m) := by
  intro z member c inZ
  obtain ⟨x, inL, y, inM, rfl⟩ := Language.mem_mul.mp member
  exact (List.mem_append.mp inZ).elim (first x inL c) (second y inM c)

theorem kstar (each : Narrow l) : Narrow l∗ := by
  rintro x ⟨words, rfl, inside⟩ c member
  obtain ⟨word, isWord, inWord⟩ := List.mem_flatten.mp member
  exact each word (inside word isWord) c inWord

theorem byteSize (narrow : Narrow l) (member : x ∈ l) : x.byteSize = x.length :=
  Text.byteSize_of_ascii (narrow x member)

end Narrow

theorem narrow_digits (narrow : isNarrow alphabet = true) : Narrow (digits alphabet) := by
  have wider : isNarrow (alphabet ++ "_") = true := by
    rw [isNarrow, String.toList_append, List.all_append, Bool.and_eq_true]
    exact ⟨narrow, rfl⟩
  exact (Narrow.oneOf narrow).mul (Narrow.oneOf wider).kstar

theorem narrow_fraction : Narrow fraction := (Narrow.oneOf rfl).mul (narrow_digits rfl)

theorem narrow_exponent : Narrow exponent :=
  (Narrow.oneOf rfl).mul ((Narrow.one.add (Narrow.oneOf rfl)).mul (narrow_digits rfl))

theorem narrow_radix : Narrow radix := by
  have hex : Narrow (oneOf "xX" * digits "0123456789abcdefABCDEF") :=
    (Narrow.oneOf rfl).mul (narrow_digits rfl)
  have binary : Narrow (oneOf "bB" * digits "01") := (Narrow.oneOf rfl).mul (narrow_digits rfl)
  exact ((Narrow.oneOf rfl).mul hex).add ((Narrow.oneOf rfl).mul binary)

theorem narrow_literal : Narrow literal := by
  have tail := Narrow.one.add narrow_exponent
  have whole : Narrow (digits "0123456789" * (1 + fraction)) :=
    (narrow_digits rfl).mul (Narrow.one.add narrow_fraction)
  exact narrow_radix.add ((whole.mul tail).add (narrow_fraction.mul tail))

section Starts
variable (starts : t.head?.any Char.isDigit = true ∨
  t.head? = some '.' ∧ t.tail.head?.any Char.isDigit = true)
include starts

theorem runLength_eq : runLength Char.isDigit t = digitsLength Char.isDigit t := by
  rcases starts with digit | ⟨point, -⟩
  · rw [digitsLength, if_pos digit]
  · obtain ⟨rest, rfl⟩ := List.head?_eq_some_iff.mp point
    rfl

theorem decimalLength_eq : decimalLength t =
    digitsLength Char.isDigit t + (fractionLength (t.drop (digitsLength Char.isDigit t)) +
      exponentLength ((t.drop (digitsLength Char.isDigit t)).drop
        (fractionLength (t.drop (digitsLength Char.isDigit t))))) := by
  simp only [decimalLength, runLength_eq starts, List.drop_drop, Nat.add_assoc]

theorem exists_cons : ∃ c rest, t = c :: rest ∧
    (c.isDigit || (c == '.' && rest.head?.any Char.isDigit)) = true := by
  cases t with
  | nil => simp at starts
  | cons c rest => exact ⟨c, rest, rfl, by simpa using starts⟩

theorem take_mem_literal : t.take (length t) ∈ literal := by
  obtain ⟨c, rest, rfl, first⟩ := exists_cons starts
  rw [length]
  by_cases based : radixLength (c :: rest) = 0
  · have positive := decimalLength_pos first
    have parts := longest_parts.mem (c :: rest)
    rw [← decimalLength_eq starts] at parts
    obtain ⟨k, counted⟩ := Nat.exists_eq_succ_of_ne_zero (Nat.ne_of_gt positive)
    rw [if_pos based]
    refine .inr (decimal_of_parts (parts (Nat.ne_of_gt positive)) ?_)
    rw [counted, List.take_succ_cons]
    exact starts.imp_right And.left
  · rw [if_neg based]
    exact .inl (longest_radix.mem _ based)

theorem length_le_of_mem (member : x ∈ literal) (front : x <+: t) : x.length ≤ length t := by
  obtain ⟨y, split⟩ := front
  rw [length_eq_max, decimalLength_eq starts, ← split]
  exact (longest_radix.add longest_parts).longest x y (member.imp_right parts_of_decimal)

theorem isGreatest_length :
    IsGreatest {n | ∃ x : Text, x ∈ literal ∧ x <+: t ∧ x.utf8.length = n} (length t) := by
  obtain ⟨c, rest, rfl, first⟩ := exists_cons starts
  have fits := (length_bounds first).2
  have member := take_mem_literal starts
  refine ⟨⟨_, member, List.take_prefix _ _, ?_⟩, ?_⟩
  · rw [Text.length_utf8, narrow_literal.byteSize member, List.length_take]
    omega
  · rintro n ⟨x, inX, front, rfl⟩
    rw [Text.length_utf8, narrow_literal.byteSize inX]
    exact length_le_of_mem starts inX front

theorem cutCode_number (limits : Limits) (line : Nat) (afterAccess : Bool) :
    cutCode limits line afterAccess t = .ok (.numberLiteral, length t) := by
  have other : ("0123456789.".toList.all fun c =>
      !Text.isSpace c && !(c == '$') && !isWordStart c) = true := rfl
  obtain ⟨c, rest, rfl, first⟩ := exists_cons starts
  have member : c ∈ "0123456789.".toList := by
    simp only [Bool.or_eq_true, Bool.and_eq_true, spells_isDigit c, beq_iff_eq] at first
    rcases first with digit | ⟨rfl, -⟩
    · exact List.mem_append_left ['.'] digit
    · decide
  have plain := List.all_eq_true.mp other c member
  simp only [Bool.and_eq_true, Bool.not_eq_true'] at plain
  obtain ⟨⟨space, dollar⟩, word⟩ := plain
  simp [cutCode, space, dollar, word, first]

end Starts

end Restyle.Lexer.Number
