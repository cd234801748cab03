import Restyle.Proofs.Lexer.Literals
import Restyle.Proofs.Text.Utf8

/-!
# Quoted strings byte by byte

`cutAt` looks for the closing quote in the bytes of a text. From a backslash it goes on two bytes later,
which may be inside a character. It still answers what the scanner of characters answers (`cutAt_eq`),
since no byte inside a character looks like a quote or a backslash.
-/

namespace Restyle.Lexer.Quoted
variable {limits : Limits} {line n : Nat} {quote c : Char} {t above rest : Text}
  {plain : List UInt8}

/-- The index behind the closing quote, looked for from byte `i` on. -/
def closingAt? (quote : Char) (bytes : List UInt8) (i : Nat) : Option Nat :=
  if h : i < bytes.length then
    if Char.ofUInt8 bytes[i] == '\\' then closingAt? quote bytes (i + 2)
    else if Char.ofUInt8 bytes[i] == quote then some (i + 1)
    else closingAt? quote bytes (i + 1)
  else none
termination_by bytes.length - i

def finish (limits : Limits) (size : Nat) : Cut :=
  if size > limits.stringBytes then .error (.stringLimit size limits.stringBytes)
  else .ok (.stringLiteral, size)

def cutAt (limits : Limits) (line : Nat) (quote : Char) (bytes : List UInt8) : Cut :=
  match closingAt? quote bytes 1 with
  | some size => finish limits size
  | none => .error (.openString line)

def sized (t : Text) (cut : Cut) : Cut := cut.map fun (kind, n) => (kind, Text.byteSize (t.take n))

def StringAt (quote : Char) (t : Text) (n : Nat) : Prop :=
  ∃ x, IsString quote x ∧ x.utf8 <+: t.utf8 ∧ x.utf8.length = n

/-! ### One byte -/

theorem closingAt?_end (bytes : List UInt8) {i : Nat} (past : bytes.length ≤ i) :
    closingAt? quote bytes i = none := by
  rw [closingAt?, dif_neg (Nat.not_lt.mpr past)]

theorem closingAt?_append (before : List UInt8) (b : UInt8) (after : List UInt8) :
    closingAt? quote (before ++ b :: after) before.length =
      if Char.ofUInt8 b == '\\' then closingAt? quote (before ++ b :: after) (before.length + 2)
      else if Char.ofUInt8 b == quote then some (before.length + 1)
      else closingAt? quote (before ++ b :: after) (before.length + 1) := by
  have here : before.length < (before ++ b :: after).length := by simp
  have byte : (before ++ b :: after)[before.length] = b := by simp
  rw [closingAt?, dif_pos here, byte]

theorem closingAt?_skip (before after : List UInt8) (quiet : ∀ b ∈ plain,
    (Char.ofUInt8 b == '\\') = false ∧ (Char.ofUInt8 b == quote) = false) :
    closingAt? quote (before ++ (plain ++ after)) before.length =
      closingAt? quote (before ++ (plain ++ after)) (before ++ plain).length := by
  induction plain generalizing before with
  | nil => simp
  | cons b plain ih =>
    obtain ⟨noEscape, noQuote⟩ := quiet b List.mem_cons_self
    have next := ih (before ++ [b]) fun d member => quiet d (List.mem_cons_of_mem _ member)
    simp only [List.append_assoc, List.singleton_append, List.length_append,
      List.length_singleton] at next
    rw [List.cons_append, closingAt?_append, noEscape, noQuote]
    simpa [Nat.add_assoc, Nat.add_comm 1] using next

/-! ### One item -/

theorem escape_ascii : Text.IsAscii (· == '\\') := Text.isAscii_eq (by decide)

theorem closingAt?_open :
    closingAt? quote (above ++ ['\\']).utf8 above.byteSize = none := by
  obtain ⟨slash, same⟩ := escape_ascii.encode (c := '\\') rfl
  have bytes : (above ++ ['\\']).utf8 = above.utf8 ++ '\\'.toUInt8 :: [] := by simp [slash]
  rw [bytes, ← Text.length_utf8, closingAt?_append, same, if_pos (by rfl), closingAt?_end]
  simp

section Ascii
variable (ascii : Text.IsAscii (· == quote))
include ascii

theorem closingAt?_plain (notQuote : c ≠ quote) (notEscape : c ≠ '\\') :
    closingAt? quote (above ++ c :: rest).utf8 above.byteSize =
      closingAt? quote (above ++ c :: rest).utf8 (above ++ [c]).byteSize := by
  have quiet : ∀ b ∈ String.utf8EncodeChar c,
      (Char.ofUInt8 b == '\\') = false ∧ (Char.ofUInt8 b == quote) = false := fun b member =>
    ⟨escape_ascii.quiet (by simpa using notEscape) member,
      ascii.quiet (by simpa using notQuote) member⟩
  have skipped := closingAt?_skip above.utf8 rest.utf8 quiet
  simpa using skipped

theorem closingAt?_escaped :
    closingAt? quote (above ++ '\\' :: c :: rest).utf8 above.byteSize =
      closingAt? quote (above ++ '\\' :: c :: rest).utf8 (above ++ ['\\', c]).byteSize := by
  -- the scan passes over the backslash and the first byte `b` of the character, and then finds nothing
  -- in the bytes that are left of it
  obtain ⟨b, tail, encoded⟩ := List.exists_cons_of_ne_nil (String.utf8EncodeChar_ne_nil (c := c))
  have quiet : ∀ d ∈ tail, (Char.ofUInt8 d == '\\') = false ∧ (Char.ofUInt8 d == quote) = false := by
    intro d member
    have inside : d ∈ (String.utf8EncodeChar c).tail := by rwa [encoded, List.tail_cons]
    exact ⟨escape_ascii.quiet_tail inside, ascii.quiet_tail inside⟩
  obtain ⟨slash, same⟩ := escape_ascii.encode (c := '\\') rfl
  have bytes : (above ++ '\\' :: c :: rest).utf8 =
      above.utf8 ++ '\\'.toUInt8 :: (b :: (tail ++ rest.utf8)) := by
    simp [slash, encoded]
  have skipped := closingAt?_skip (above.utf8 ++ ['\\'.toUInt8, b]) rest.utf8 quiet
  have size : (above ++ ['\\', c]).byteSize = (above.utf8 ++ ['\\'.toUInt8, b] ++ tail).length := by
    rw [← Text.length_utf8, Text.utf8_append, Text.utf8_cons, Text.utf8_cons, slash, encoded]
    simp
  rw [size, bytes, ← Text.length_utf8, closingAt?_append, same]
  simpa using skipped

theorem closingAt?_quote (other : quote ≠ '\\') :
    closingAt? quote (above ++ quote :: rest).utf8 above.byteSize =
      some (above ++ [quote]).byteSize := by
  obtain ⟨byte, same⟩ := ascii.encode (c := quote) (by simp)
  have bytes : (above ++ quote :: rest).utf8 = above.utf8 ++ quote.toUInt8 :: rest.utf8 := by
    simp [byte]
  have size : (above ++ [quote]).byteSize = above.byteSize + 1 := by
    rw [← Text.length_utf8, Text.utf8_append, Text.utf8_cons, byte]
    simp
  rw [size, bytes, ← Text.length_utf8, closingAt?_append, same, if_neg (by simpa using other),
    if_pos (by simp)]

/-! ### The whole scan -/

theorem closingAt?_eq (other : quote ≠ '\\') (above rest : Text) :
    closingAt? quote (above ++ rest).utf8 above.byteSize =
      (closing? quote rest above.length).map fun k => Text.byteSize ((above ++ rest).take k) := by
  -- along the scan of characters: at the start of an item the scan of bytes is in the same place
  generalize counted : above.length = n
  fun_induction closing? quote rest n generalizing above with
  | case1 => exact closingAt?_end _ (by simp)
  | case2 => exact closingAt?_open
  | case3 c rest n ih =>
    have next := ih (above ++ ['\\', c]) (by simp [counted])
    rw [closingAt?_escaped ascii]
    simpa using next
  | case4 c rest n _ _ same =>
    obtain rfl : c = quote := by simpa using same
    have front : (above ++ c :: rest).take (n + 1) = above ++ [c] := by
      rw [← counted, List.take_length_add_append]
      rfl
    rw [closingAt?_quote ascii other, Option.map_some, front]
  | case5 c rest n alone pair different ih =>
    have notEscape : c ≠ '\\' := by
      rintro rfl
      cases rest with
      | nil => exact alone rfl rfl
      | cons d rest => exact pair d rest rfl rfl
    have next := ih (above ++ [c]) (by simp [counted])
    rw [closingAt?_plain ascii (by simpa using different) notEscape]
    simpa using next

theorem closingAt?_one (other : quote ≠ '\\') (opens : t.head? = some quote) :
    closingAt? quote t.utf8 1 = (length? quote t).map fun k => Text.byteSize (t.take k) := by
  obtain ⟨rest, rfl⟩ := List.head?_eq_some_iff.mp opens
  obtain ⟨byte, -⟩ := ascii.encode (c := quote) (by simp)
  have size : Text.byteSize [quote] = 1 := by
    rw [← Text.length_utf8, Text.utf8_cons, byte]
    rfl
  have scanned := closingAt?_eq ascii other [quote] rest
  rwa [size] at scanned

end Ascii

/-! ### What the scanner answers -/

theorem finish_inj {m n : Nat} : finish limits m = finish limits n ↔ m = n := by
  refine ⟨fun same => ?_, congrArg _⟩
  unfold finish at same
  split at same
  · split at same
    · exact (LexError.stringLimit.inj (Except.error.inj same)).1
    · cases same
  · split at same
    · cases same
    · exact congrArg Prod.snd (Except.ok.inj same)

theorem finish_ne_open : finish limits n ≠ .error (.openString line) := by
  unfold finish
  split <;> simp

theorem sized_eq_open {cut : Cut} :
    sized t cut = .error (.openString line) ↔ cut = .error (.openString line) := by
  cases cut with
  | error e => rfl
  | ok cut => simp [sized, Except.map]

theorem ascii_of_isQuote (isQuote : quote = '\'' ∨ quote = '"') :
    Text.IsAscii (· == quote) ∧ quote ≠ '\\' := by
  rcases isQuote with rfl | rfl
  · exact ⟨Text.isAscii_eq (by decide), by decide⟩
  · exact ⟨Text.isAscii_eq (by decide), by decide⟩

section Opened
variable (isQuote : quote = '\'' ∨ quote = '"') (opens : t.head? = some quote)
include isQuote opens

theorem closingAt?_iff : closingAt? quote t.utf8 1 = some n ↔ StringAt quote t n := by
  obtain ⟨ascii, other⟩ := ascii_of_isQuote isQuote
  rw [closingAt?_one ascii other opens, Option.map_eq_some_iff]
  constructor
  · rintro ⟨k, found, size⟩
    obtain ⟨rest, rfl⟩ := List.head?_eq_some_iff.mp opens
    obtain ⟨x, y, split, rfl, string⟩ := isString_of_length? found
    rw [split, List.take_left] at size
    rw [split]
    exact ⟨x, string, Text.utf8_prefix_utf8.mpr (List.prefix_append x y), by
      rw [Text.length_utf8, size]⟩
  · rintro ⟨x, string, starts, size⟩
    obtain ⟨y, rfl⟩ := Text.utf8_prefix_utf8.mp starts
    exact ⟨x.length, length?_of_isString other string, by
      rw [List.take_left, ← Text.length_utf8, size]⟩

theorem cutAt_eq :
    cutAt limits line quote t.utf8 = sized t (cutQuoted limits line quote t) := by
  obtain ⟨ascii, other⟩ := ascii_of_isQuote isQuote
  rw [cutAt, cutQuoted, closingAt?_one ascii other opens]
  cases length? quote t with
  | none => rfl
  | some k =>
    simp only [Option.map_some, cutString, finish, sized]
    split <;> rfl

theorem cutAt_eq_finish :
    cutAt limits line quote t.utf8 = finish limits n ↔ StringAt quote t n := by
  rw [← closingAt?_iff isQuote opens, cutAt]
  cases closingAt? quote t.utf8 1 with
  | none => simp [finish_ne_open.symm]
  | some k => simp only [finish_inj, Option.some.injEq]

theorem cutAt_eq_open :
    cutAt limits line quote t.utf8 = .error (.openString line) ↔ ∀ n, ¬ StringAt quote t n := by
  simp only [← closingAt?_iff isQuote opens, cutAt]
  cases closingAt? quote t.utf8 1 with
  | none => simp
  | some k => simp [finish_ne_open]

/-- The scanner answers with the size of the string that starts the text, as a literal or as too large.
There is at most one such size, and the string is open if there is none. The scan of bytes gives the
same answers. -/
theorem scan_ends_at_bare_quote (limits : Limits) (line : Nat) :
    (∀ n, sized t (cutQuoted limits line quote t) = finish limits n ↔ StringAt quote t n) ∧
    (∀ m n, StringAt quote t m → StringAt quote t n → m = n) ∧
    (cutQuoted limits line quote t = .error (.openString line) ↔ ∀ n, ¬ StringAt quote t n) ∧
    cutAt limits line quote t.utf8 = sized t (cutQuoted limits line quote t) := by
  have agree : cutAt limits line quote t.utf8 = sized t (cutQuoted limits line quote t) :=
    cutAt_eq isQuote opens
  refine ⟨fun n => ?_, fun m n first second => ?_, ?_, agree⟩
  · rw [← agree]
    exact cutAt_eq_finish isQuote opens
  · rw [← closingAt?_iff isQuote opens] at first second
    exact Option.some.inj (first.symm.trans second)
  · rw [← sized_eq_open, ← agree]
    exact cutAt_eq_open isQuote opens

end Opened

/-- A run of three backslashes in front of a quote, an escaped character of two bytes, and a character
of three bytes before the quote that counts. -/
theorem scan_ends_at_bare_quote_escapes :
    ('"' = '\'' ∨ '"' = '"') ∧ ("\"\\\\\\\"\\é€\"x\"".toList).head? = some '"' ∧
    cutQuoted .development 1 '"' "\"\\\\\\\"\\é€\"x\"".toList = .ok (.stringLiteral, 9) ∧
    StringAt '"' "\"\\\\\\\"\\é€\"x\"".toList 12 ∧
    cutAt .development 1 '"' (Text.utf8 "\"\\\\\\\"\\é€\"x\"".toList) = .ok (.stringLiteral, 12) := by
  have isQuote : '"' = '\'' ∨ '"' = '"' := .inr rfl
  have opens : ("\"\\\\\\\"\\é€\"x\"".toList).head? = some '"' := by decide
  have found : cutQuoted .development 1 '"' "\"\\\\\\\"\\é€\"x\"".toList = .ok (.stringLiteral, 9) := by
    decide
  obtain ⟨answers, -, -, bytes⟩ := scan_ends_at_bare_quote isQuote opens .development 1
  rw [found] at bytes
  exact ⟨isQuote, opens, found, (answers 12).mp (by rw [found]; decide), bytes⟩

end Restyle.Lexer.Quoted
