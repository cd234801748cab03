import Restyle.Proofs.Lexer.Numerals

/-!
# Numbers by bytes

`lengthAt?` reads a number by indices into the bytes of the text. A read past the end has no result, so
a result says that there was none. What is read are single bytes as long as the parts of a number are
found, and a byte of a longer character is in none of the classes: the two scans measure the same
(`lengthAt?_eq`).
-/

namespace Restyle.Lexer.Number

variable {t x y : Text} {c : Char} {digit : Char → Bool}

/-- Whether the byte at an index is in the class. A read past the end has no result. -/
def isAt? (bytes : List UInt8) (p : Char → Bool) (i : Nat) : Option Bool :=
  bytes[i]?.map fun b => p (Char.ofUInt8 b)

def hasAt? (bytes : List UInt8) (p : Char → Bool) (i : Nat) : Option Bool :=
  if i < bytes.length then isAt? bytes p i else some false

def runEnd? (digit : Char → Bool) (bytes : List UInt8) (i : Nat) : Option Nat :=
  if h : i < bytes.length then do
    if ← isAt? bytes (fun c => digit c || c == '_') i then runEnd? digit bytes (i + 1) else some i
  else some i
termination_by bytes.length - i

def basedEnd? (mark digit : Char → Bool) (bytes : List UInt8) : Option Nat := do
  if !(← isAt? bytes mark 1) then return 0
  if ← isAt? bytes digit 2 then runEnd? digit bytes 2 else return 0

/-- The end of an integer with a base mark whose zero has been seen. -/
def markedEnd? (bytes : List UInt8) : Option Nat := do
  let hex ← basedEnd? (fun c => c == 'x' || c == 'X') Text.isHexDigit bytes
  if hex = 0 then basedEnd? (fun c => c == 'b' || c == 'B') isBinaryDigit bytes else return hex

def radixEnd? (bytes : List UInt8) : Option Nat := do
  if bytes.length ≤ 2 then return 0
  if ← isAt? bytes (· == '0') 0 then markedEnd? bytes else return 0

def fractionEnd? (bytes : List UInt8) (i : Nat) : Option Nat := do
  if bytes.length ≤ i + 1 then return i
  if !(← isAt? bytes (· == '.') i) then return i
  if ← isAt? bytes Char.isDigit (i + 1) then runEnd? Char.isDigit bytes (i + 1) else return i

def exponentEnd? (bytes : List UInt8) (i : Nat) : Option Nat := do
  if !(← hasAt? bytes (fun c => c == 'e' || c == 'E') i) then return i
  let start := if ← hasAt? bytes (fun c => c == '+' || c == '-') (i + 1) then i + 2 else i + 1
  if ← hasAt? bytes Char.isDigit start then runEnd? Char.isDigit bytes start else return i

def decimalEnd? (bytes : List UInt8) : Option Nat := do
  exponentEnd? bytes (← fractionEnd? bytes (← runEnd? Char.isDigit bytes 0))

def lengthAt? (bytes : List UInt8) : Option Nat := do
  let based ← radixEnd? bytes
  if based = 0 then decimalEnd? bytes else return based

theorem signLength_eq (t : Text) :
    signLength t = if t.head?.any (fun c => c == '+' || c == '-') = true then 1 else 0 := by
  cases t <;> rfl

section SingleBytes
variable {p : Char → Bool} (narrow : x.byteSize = x.length)
include narrow

theorem narrow_concat (small : c.toNat < 128) : (x ++ [c]).byteSize = (x ++ [c]).length := by
  have single := Text.byteSize_of_ascii (t := [c]) (by simpa using small)
  rw [Text.byteSize_append, narrow, single, List.length_append]

theorem lt_length_utf8 : x.length < (x ++ c :: y).utf8.length := by
  have positive := c.utf8Size_pos
  rw [Text.length_utf8, Text.byteSize_append, Text.byteSize_cons, narrow]
  omega

theorem isAt?_append (ascii : Text.IsAscii p) : isAt? (x ++ c :: y).utf8 p x.length = some (p c) := by
  obtain ⟨b, rest, encoded, same⟩ := ascii.first c
  have byte : (x ++ c :: y).utf8[x.length]? = some b := by
    rw [Text.utf8_append, Text.utf8_cons, encoded, ← narrow, ← Text.length_utf8]
    simp
  rw [isAt?, byte, Option.map_some, same]

theorem hasAt?_append (ascii : Text.IsAscii p) :
    hasAt? (x ++ y).utf8 p x.length = some (y.head?.any p) := by
  cases y with
  | nil => rw [hasAt?, if_neg (by simp [narrow])]; rfl
  | cons c y =>
    rw [hasAt?, if_pos (lt_length_utf8 narrow), isAt?_append narrow ascii]
    rfl

theorem runEnd?_append (ascii : Text.IsAscii digit) :
    runEnd? digit (x ++ y).utf8 x.length = some (x.length + runLength digit y) := by
  have run := ascii.or (Text.isAscii_eq (c := '_') (by decide))
  -- every step moves one character from `y` to the end of `x`, which has single bytes only
  induction y generalizing x with
  | nil =>
    rw [runEnd?, dif_neg (by simp [narrow])]
    rfl
  | cons c y ih =>
    rw [runEnd?, dif_pos (lt_length_utf8 narrow), isAt?_append narrow run, Option.bind_eq_bind,
      Option.bind_some]
    by_cases inside : (digit c || c == '_') = true
    · have next := ih (narrow_concat narrow (run c inside))
      have count : runLength digit (c :: y) = runLength digit y + 1 := by
        simp [runLength, inside]
      simp only [List.append_assoc, List.singleton_append, List.length_append,
        List.length_singleton] at next
      rw [if_pos inside, next, count]
      congr 1
      omega
    · have count : runLength digit (c :: y) = 0 := by
        simp [runLength, inside]
      rw [if_neg inside, count, Nat.add_zero]

theorem digitsEnd_append (ascii : Text.IsAscii digit) (n : Nat) :
    (if y.head?.any digit = true then runEnd? digit (x ++ y).utf8 x.length else some n) =
      some (if digitsLength digit y = 0 then n else x.length + digitsLength digit y) := by
  by_cases here : y.head?.any digit = true
  · have positive := digitsLength_pos here
    rw [if_pos here, if_neg (Nat.ne_of_gt positive), runEnd?_append narrow ascii, digitsLength,
      if_pos here]
  · rw [if_neg here, digitsLength, if_neg here, if_pos rfl]

theorem fractionEnd?_append :
    fractionEnd? (x ++ y).utf8 x.length = some (x.length + fractionLength y) := by
  have point : Text.IsAscii (· == '.') := Text.isAscii_eq (by decide)
  rw [fractionEnd?]
  cases y with
  | nil =>
    rw [if_pos (by simp [narrow])]
    rfl
  | cons c y =>
    by_cases isPoint : c = '.'
    · subst isPoint
      cases y with
      | nil =>
        rw [if_pos (by simp [narrow]; decide)]
        rfl
      | cons d y =>
        have wider := narrow_concat narrow (show '.'.toNat < 128 by decide)
        have room := lt_length_utf8 (c := d) (y := y) wider
        have here := isAt?_append (c := d) (y := y) wider ascii_isDigit
        have run := digitsEnd_append (y := d :: y) wider ascii_isDigit x.length
        simp only [List.append_assoc, List.singleton_append, List.length_append,
          List.length_singleton, List.head?_cons, Option.any_some] at room here run
        rw [if_neg (Nat.not_le.mpr room), isAt?_append narrow point, fractionLength_point]
        simp only [Option.bind_eq_bind, Option.bind_some, beq_self_eq_true, Bool.not_true,
          Bool.false_eq_true, if_false, here]
        refine run.trans (congrArg some ?_)
        split <;> omega
    · rw [fractionLength_of_ne isPoint]
      split
      · rfl
      · rw [isAt?_append narrow point]
        simp [isPoint]

theorem narrow_sign (y : Text) : ∃ w, w.byteSize = w.length ∧ x ++ y = w ++ y.drop (signLength y) ∧
    w.length = x.length + signLength y := by
  cases y with
  | nil => exact ⟨x, narrow, rfl, rfl⟩
  | cons c y =>
    by_cases sign : (c == '+' || c == '-') = true
    · have signs := Text.isAscii_or_eq (show '+'.toNat < 128 ∧ '-'.toNat < 128 by decide)
      refine ⟨x ++ [c], narrow_concat narrow (signs c sign), ?_, ?_⟩
      · simp [signLength, sign]
      · simp [signLength, sign]
    · refine ⟨x, narrow, ?_, ?_⟩
      · simp [signLength, sign]
      · simp [signLength, sign]

theorem exponentEnd?_append :
    exponentEnd? (x ++ y).utf8 x.length = some (x.length + exponentLength y) := by
  have marks := Text.isAscii_or_eq (show 'e'.toNat < 128 ∧ 'E'.toNat < 128 by decide)
  have signs := Text.isAscii_or_eq (show '+'.toNat < 128 ∧ '-'.toNat < 128 by decide)
  rw [exponentEnd?, hasAt?_append narrow marks, Option.bind_eq_bind, Option.bind_some]
  cases y with
  | nil => rfl
  | cons c y =>
    rw [List.head?_cons, Option.any_some, exponentLength_cons]
    by_cases mark : (c == 'e' || c == 'E') = true
    · -- `w` ends where the digits of the exponent have to start
      have wider := narrow_concat narrow (marks c mark)
      have sign := hasAt?_append (y := y) wider signs
      obtain ⟨w, narrowW, split, length⟩ := narrow_sign wider y
      have here := hasAt?_append (y := y.drop (signLength y)) narrowW ascii_isDigit
      have run := digitsEnd_append (y := y.drop (signLength y)) narrowW ascii_isDigit x.length
      have start : (if y.head?.any (fun c => c == '+' || c == '-') = true then x.length + 2
          else x.length + 1) = w.length := by
        rw [length, signLength_eq, List.length_append]
        split <;> rfl
      simp only [List.append_assoc, List.singleton_append, List.length_append,
        List.length_singleton] at sign split length
      rw [← split] at here run
      simp only [mark, Bool.not_true, Bool.false_eq_true, if_false, sign, Option.bind_some,
        Bool.true_and, bne_iff_ne, start, here]
      refine run.trans (congrArg some ?_)
      rw [exponentDigits, length]
      by_cases none : digitsLength Char.isDigit (y.drop (signLength y)) = 0
      · rw [if_pos none, if_neg (not_not_intro none), Nat.add_zero]
      · rw [if_neg none, if_pos none]
        omega
    · simp [mark]

end SingleBytes

theorem basedEnd?_eq {isMark : Char → Bool} (marks : Text.IsAscii isMark) (ascii : Text.IsAscii digit)
    {mark : Char} {rest : Text} (room : 2 < Text.byteSize ('0' :: mark :: rest)) :
    basedEnd? isMark digit (Text.utf8 ('0' :: mark :: rest)) =
      some (if isMark mark = true ∧ digitsLength digit rest ≠ 0 then digitsLength digit rest + 2
        else 0) := by
  have zero : Text.byteSize ['0'] = ['0'].length := rfl
  have first := isAt?_append (c := mark) (y := rest) zero marks
  rw [basedEnd?, show isAt? (Text.utf8 ('0' :: mark :: rest)) isMark 1 = some (isMark mark) from first,
    Option.bind_eq_bind, Option.bind_some]
  by_cases marked : isMark mark = true
  · have wider := narrow_concat zero (marks mark marked)
    cases rest with
    | nil =>
      have size : Text.byteSize ['0', mark] = 2 := wider
      omega
    | cons d rest =>
      have here : isAt? (Text.utf8 ('0' :: mark :: d :: rest)) digit 2 = some (digit d) :=
        isAt?_append (c := d) (y := rest) wider ascii
      have run := digitsEnd_append (y := d :: rest) wider ascii 0
      simp only [marked, Bool.not_true, Bool.false_eq_true, if_false, here, Option.bind_some]
      refine run.trans (congrArg some ?_)
      by_cases none : digitsLength digit (d :: rest) = 0
      · simp [none]
      · simp [none, Nat.add_comm]
  · simp [marked]

theorem markedEnd?_eq {mark : Char} {rest : Text} (room : 2 < Text.byteSize ('0' :: mark :: rest)) :
    markedEnd? (Text.utf8 ('0' :: mark :: rest)) = some (radixLength ('0' :: mark :: rest)) := by
  have hexMarks := Text.isAscii_or_eq (show 'x'.toNat < 128 ∧ 'X'.toNat < 128 by decide)
  have binaryMarks := Text.isAscii_or_eq (show 'b'.toNat < 128 ∧ 'B'.toNat < 128 by decide)
  rw [markedEnd?, basedEnd?_eq hexMarks ascii_isHexDigit room,
    basedEnd?_eq binaryMarks ascii_isBinaryDigit room, radixLength_zero, radixDigits,
    Option.bind_eq_bind, Option.bind_some]
  by_cases hex : (mark == 'x' || mark == 'X') = true
  · have other : (mark == 'b' || mark == 'B') = false := by
      rcases (by simpa using hex : mark = 'x' ∨ mark = 'X') with rfl | rfl <;> rfl
    by_cases none : digitsLength Text.isHexDigit rest = 0
    · simp [hex, other, none]
    · simp [hex, none]
  · by_cases binary : (mark == 'b' || mark == 'B') = true
    · simp [hex, binary, ite_not]
    · simp [hex, binary]

theorem radixEnd?_eq (t : Text) : radixEnd? t.utf8 = some (radixLength t) := by
  rw [radixEnd?, Text.length_utf8]
  by_cases short : t.byteSize ≤ 2
  · -- two bytes are at most two characters, and a base needs three
    have none : radixLength t = 0 := by
      by_contra based
      obtain ⟨mark, rest, rfl, some, length⟩ := exists_radixDigits based
      have fits := radixLength_le ('0' :: mark :: rest)
      have bytes := Text.length_le_byteSize ('0' :: mark :: rest)
      omega
    rw [if_pos short, none]
    rfl
  · cases t with
    | nil => exact (short (Nat.zero_le 2)).elim
    | cons c rest =>
      have zeros : Text.IsAscii (· == '0') := Text.isAscii_eq (by decide)
      have first : isAt? (Text.utf8 (c :: rest)) (· == '0') 0 = some (c == '0') :=
        isAt?_append (x := []) rfl zeros
      rw [if_neg short, first, Option.bind_eq_bind, Option.bind_some]
      by_cases zero : c = '0'
      · subst zero
        cases rest with
        | nil => exact (short (by decide)).elim
        | cons mark rest => exact markedEnd?_eq (Nat.lt_of_not_le short)
      · rw [radixLength_of_ne zero, if_neg (by simpa using zero)]
        rfl

theorem narrow_run (t : Text) :
    Text.byteSize (t.takeWhile fun c => c.isDigit || c == '_') = runLength Char.isDigit t := by
  have run := ascii_isDigit.or (Text.isAscii_eq (c := '_') (by decide))
  refine Text.byteSize_of_ascii fun c member => run c ?_
  exact List.mem_takeWhile_imp (p := fun c => c.isDigit || c == '_') member

theorem decimalEnd?_eq (t : Text) : decimalEnd? t.utf8 = some (decimalLength t) := by
  obtain ⟨x, y, rfl, count, narrow⟩ : ∃ x y : Text, t = x ++ y ∧
      runLength Char.isDigit t = x.length ∧ x.byteSize = x.length :=
    ⟨_, _, List.takeWhile_append_dropWhile.symm, rfl, narrow_run t⟩
  have fits := fractionLength_le y
  have whole : runEnd? Char.isDigit (x ++ y).utf8 0 = some x.length := by
    simpa [count] using runEnd?_append (x := []) (y := x ++ y) rfl ascii_isDigit
  have pointed := fractionEnd?_append (y := y) narrow
  have wider : (x ++ y.take (fractionLength y)).byteSize = (x ++ y.take (fractionLength y)).length := by
    have mid := (Narrow.one.add narrow_fraction).byteSize (longest_fraction.take_mem y)
    rw [Text.byteSize_append, narrow, mid, List.length_append]
  have last := exponentEnd?_append (y := y.drop (fractionLength y)) wider
  rw [List.append_assoc, List.take_append_drop, List.length_append, List.length_take,
    Nat.min_eq_left fits] at last
  rw [decimalEnd?, whole, Option.bind_eq_bind, Option.bind_some, pointed, Option.bind_some, last,
    decimalLength, count, List.drop_left, ← List.drop_drop, List.drop_left]

theorem lengthAt?_eq (t : Text) : lengthAt? t.utf8 = some (length t) := by
  rw [lengthAt?, radixEnd?_eq, Option.bind_eq_bind, Option.bind_some, decimalEnd?_eq, length]
  split <;> rfl

/-- A number is the longest literal that starts the text, in bytes as in characters, and the scan by
indices finds it without a read past the end. -/
theorem length_is_longest (limits : Limits) (line : Nat) (afterAccess : Bool) (t : Text)
    (starts : t.head?.any Char.isDigit = true ∨
      t.head? = some '.' ∧ t.tail.head?.any Char.isDigit = true) :
    cutCode limits line afterAccess t = .ok (.numberLiteral, length t) ∧
    t.take (length t) ∈ literal ∧
    IsGreatest {n | ∃ x : Text, x ∈ literal ∧ x <+: t ∧ x.utf8.length = n} (length t) ∧
    1 ≤ length t ∧ length t ≤ t.length ∧
    lengthAt? t.utf8 = some (length t) := by
  obtain ⟨c, rest, rfl, first⟩ := exists_cons starts
  obtain ⟨positive, fits⟩ := length_bounds first
  exact ⟨cutCode_number starts limits line afterAccess, take_mem_literal starts,
    isGreatest_length starts, positive, fits, lengthAt?_eq _⟩

/-- The mark and the sign of an exponent are left if no digit follows. -/
theorem length_is_longest_open_exponent :
    (".5_0e+é".toList.head?.any Char.isDigit = true ∨ ".5_0e+é".toList.head? = some '.' ∧
      ".5_0e+é".toList.tail.head?.any Char.isDigit = true) ∧
    cutCode .development 1 false ".5_0e+é".toList = .ok (.numberLiteral, 4) ∧
    IsGreatest {n | ∃ x : Text, x ∈ literal ∧ x <+: ".5_0e+é".toList ∧ x.utf8.length = n} 4 ∧
    lengthAt? (Text.utf8 ".5_0e+é".toList) = some 4 := by
  have starts : ".5_0e+é".toList.head?.any Char.isDigit = true ∨ ".5_0e+é".toList.head? = some '.' ∧
      ".5_0e+é".toList.tail.head?.any Char.isDigit = true := by decide
  have four : length ".5_0e+é".toList = 4 := by decide
  obtain ⟨cut, -, longest, -, -, bytes⟩ := length_is_longest .development 1 false _ starts
  rw [four] at cut longest bytes
  exact ⟨starts, cut, longest, bytes⟩

end Restyle.Lexer.Number
