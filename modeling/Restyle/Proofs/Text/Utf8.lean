import Restyle.Proofs.Text

/-!
# Text as bytes

`utf8` is the text as it is stored. A byte below 128 stands in it for the character with that code and
for no other (`IsAscii.encode`, `IsAscii.quiet`), so a scan for such characters may go byte by byte, even
from a place inside a character on (`IsAscii.quiet_tail`).
-/

namespace Restyle.Text
variable {t x y : Text} {c : Char} {b : UInt8} {p : Char → Bool}

def utf8 (t : Text) : List UInt8 := t.flatMap String.utf8EncodeChar

@[simp] theorem utf8_nil : utf8 [] = [] := rfl

@[simp] theorem utf8_cons (c : Char) (t : Text) : utf8 (c :: t) = String.utf8EncodeChar c ++ utf8 t :=
  List.flatMap_cons

@[simp] theorem utf8_append (x y : Text) : utf8 (x ++ y) = utf8 x ++ utf8 y := List.flatMap_append

@[simp] theorem length_utf8 (t : Text) : (utf8 t).length = byteSize t := by
  induction t with
  | nil => rfl
  | cons c t ih => rw [utf8_cons, List.length_append, String.length_utf8EncodeChar, ih, byteSize_cons]

theorem utf8ByteSize_ofList (t : Text) : (String.ofList t).utf8ByteSize = byteSize t := by
  rw [← String.size_toByteArray, String.toByteArray_ofList, List.utf8Encode, List.size_toByteArray]
  exact length_utf8 t

theorem byteSize_toList (s : String) : byteSize s.toList = s.utf8ByteSize := by
  rw [← utf8ByteSize_ofList, String.ofList_toList]

theorem byteSize_mono (front : x <+: t) : byteSize x ≤ byteSize t := by
  obtain ⟨rest, rfl⟩ := front
  rw [byteSize_append]
  exact Nat.le_add_right ..

theorem length_le_byteSize (t : Text) : t.length ≤ byteSize t := by
  induction t with
  | nil => exact Nat.le_refl 0
  | cons c t ih =>
    have positive := c.utf8Size_pos
    rw [List.length_cons, byteSize_cons]
    omega

/-- Bytes that start a text and are a text themselves are whole characters of it. -/
theorem utf8_prefix_utf8 : utf8 x <+: utf8 t ↔ x <+: t := by
  constructor
  · rintro ⟨rest, split⟩
    refine List.isPrefix_of_utf8Encode_append_eq_utf8Encode rest.toByteArray ?_
    rw [List.utf8Encode, List.utf8Encode, ← List.toByteArray_append]
    exact congrArg List.toByteArray split
  · rintro ⟨rest, rfl⟩
    rw [utf8_append]
    exact List.prefix_append _ _

/-! ### Single bytes -/

theorem encode_of_lt (small : c.toNat < 128) : String.utf8EncodeChar c = [c.toUInt8] := by
  refine String.utf8EncodeChar_eq_singleton (Char.utf8Size_eq_one_iff.mpr ?_)
  rw [UInt32.le_iff_toNat_le]
  exact Nat.le_of_lt_succ small

theorem ofUInt8_toUInt8 (small : c.toNat < 128) : Char.ofUInt8 c.toUInt8 = c := by
  apply Char.ext
  apply UInt32.toNat_inj.mp
  show c.val.toNat % 256 = c.val.toNat
  exact Nat.mod_eq_of_lt (Nat.lt_trans small (by decide))

/-- All bytes of a character beyond the first 128 are large. -/
theorem le_of_mem_encode (large : 128 ≤ c.toNat) (member : b ∈ String.utf8EncodeChar c) :
    128 ≤ b.toNat := by
  have beyond : ¬ c.val.toNat ≤ 0x7f := Nat.not_le.mpr large
  unfold String.utf8EncodeChar at member
  simp only [if_neg beyond] at member
  split at member
  · simp only [List.mem_cons, List.not_mem_nil, or_false] at member
    rcases member with rfl | rfl <;> rw [UInt8.toNat_ofNat'] <;> omega
  · split at member
    · simp only [List.mem_cons, List.not_mem_nil, or_false] at member
      rcases member with rfl | rfl | rfl <;> rw [UInt8.toNat_ofNat'] <;> omega
    · simp only [List.mem_cons, List.not_mem_nil, or_false] at member
      rcases member with rfl | rfl | rfl | rfl <;> rw [UInt8.toNat_ofNat'] <;> omega

/-! ### Classes of characters below 128 -/

def IsAscii (p : Char → Bool) : Prop := ∀ c, p c = true → c.toNat < 128

theorem isAscii_eq (small : c.toNat < 128) : IsAscii (· == c) := by
  intro d same
  rwa [beq_iff_eq.mp same]

theorem IsAscii.or {q : Char → Bool} (left : IsAscii p) (right : IsAscii q) :
    IsAscii fun c => p c || q c := fun c here =>
  (Bool.or_eq_true_iff.mp here).elim (left c) (right c)

theorem isAscii_or_eq {a b : Char} (small : a.toNat < 128 ∧ b.toNat < 128) :
    IsAscii fun c => c == a || c == b :=
  (isAscii_eq small.1).or (isAscii_eq small.2)

theorem IsAscii.quiet_byte (ascii : IsAscii p) (large : 128 ≤ b.toNat) :
    p (Char.ofUInt8 b) = false := by
  rw [← Bool.not_eq_true]
  intro here
  have small : b.toNat < 128 := ascii _ here
  omega

theorem IsAscii.encode (ascii : IsAscii p) (here : p c = true) :
    String.utf8EncodeChar c = [c.toUInt8] ∧ Char.ofUInt8 c.toUInt8 = c :=
  ⟨encode_of_lt (ascii c here), ofUInt8_toUInt8 (ascii c here)⟩

theorem byteSize_of_ascii (small : ∀ c ∈ t, c.toNat < 128) : byteSize t = t.length := by
  induction t with
  | nil => rfl
  | cons c t ih =>
    have first : c.utf8Size = 1 := by
      rw [← String.length_utf8EncodeChar, encode_of_lt (small c List.mem_cons_self)]
      rfl
    rw [byteSize_cons, first, ih fun d member => small d (List.mem_cons_of_mem _ member),
      List.length_cons, Nat.add_comm]

/-- No byte of a character outside of the class looks like a character of the class. -/
theorem IsAscii.quiet (ascii : IsAscii p) (other : p c = false) (member : b ∈ String.utf8EncodeChar c) :
    p (Char.ofUInt8 b) = false := by
  by_cases small : c.toNat < 128
  · rw [encode_of_lt small, List.mem_singleton] at member
    rw [member, ofUInt8_toUInt8 small, other]
  · exact ascii.quiet_byte (le_of_mem_encode (Nat.le_of_not_lt small) member)

/-- The first byte of a character tells whether the class has it. -/
theorem IsAscii.first (ascii : IsAscii p) (c : Char) :
    ∃ b rest, String.utf8EncodeChar c = b :: rest ∧ p (Char.ofUInt8 b) = p c := by
  obtain ⟨b, rest, encoded⟩ := List.exists_cons_of_ne_nil (String.utf8EncodeChar_ne_nil (c := c))
  refine ⟨b, rest, encoded, ?_⟩
  cases here : p c with
  | false => exact ascii.quiet here (by rw [encoded]; exact List.mem_cons_self)
  | true =>
    obtain ⟨single, same⟩ := ascii.encode here
    obtain ⟨rfl, -⟩ := List.cons.inj (encoded.symm.trans single)
    rw [same, here]

/-- Nor does a byte inside a character, whatever the character is. -/
theorem IsAscii.quiet_tail (ascii : IsAscii p) (member : b ∈ (String.utf8EncodeChar c).tail) :
    p (Char.ofUInt8 b) = false := by
  by_cases small : c.toNat < 128
  · rw [encode_of_lt small] at member
    cases member
  · exact ascii.quiet_byte
      (le_of_mem_encode (Nat.le_of_not_lt small) (List.mem_of_mem_tail member))

end Restyle.Text
