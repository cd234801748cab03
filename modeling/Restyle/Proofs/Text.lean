import Restyle.Text

/-!
# Sizes and slices in bytes

The size of a text is the sum over its characters, so an offset in bytes falls between two characters
only if it is the size of a part at the front of the text.
-/

namespace Restyle.Text
variable {t x y : Text} {n : Nat}

theorem foldl_utf8Size (n : Nat) (t : Text) :
    t.foldl (fun n c => n + c.utf8Size) n = n + byteSize t := by
  induction t generalizing n with
  | nil => rfl
  | cons c t ih =>
    have rest := ih c.utf8Size
    simp only [byteSize, List.foldl_cons, Nat.zero_add] at rest ⊢
    rw [ih, rest, Nat.add_assoc]
    rfl

@[simp] theorem byteSize_nil : byteSize [] = 0 := rfl

@[simp] theorem byteSize_cons (c : Char) (t : Text) : byteSize (c :: t) = c.utf8Size + byteSize t := by
  rw [byteSize, List.foldl_cons, foldl_utf8Size, Nat.zero_add]

@[simp] theorem byteSize_append (x y : Text) : byteSize (x ++ y) = byteSize x + byteSize y := by
  rw [byteSize, List.foldl_append, foldl_utf8Size, foldl_utf8Size, Nat.zero_add]

/-- The text up to an offset in bytes and from there on. An offset inside a character gives none. -/
def splitBytes? : Text → Nat → Option (Text × Text)
  | t, 0 => some ([], t)
  | [], _ + 1 => none
  | c :: t, n + 1 =>
    if c.utf8Size ≤ n + 1 then
      (splitBytes? t (n + 1 - c.utf8Size)).map fun (x, y) => (c :: x, y)
    else none

theorem splitBytes?_append (x y : Text) : splitBytes? (x ++ y) (byteSize x) = some (x, y) := by
  induction x with
  | nil => simp [splitBytes?]
  | cons c x ih =>
    obtain ⟨n, size⟩ : ∃ n, byteSize (c :: x) = n + 1 := by
      have positive := c.utf8Size_pos
      exact ⟨byteSize (c :: x) - 1, by rw [byteSize_cons]; omega⟩
    have fits : c.utf8Size ≤ n + 1 := by rw [← size, byteSize_cons]; omega
    have left : n + 1 - c.utf8Size = byteSize x := by rw [← size, byteSize_cons]; omega
    rw [size, List.cons_append, splitBytes?, if_pos fits, left, ih]
    rfl

theorem splitBytes?_eq_some : splitBytes? t n = some (x, y) ↔ t = x ++ y ∧ byteSize x = n := by
  constructor
  · intro found
    fun_induction splitBytes? t n generalizing x with
    | case1 =>
      obtain ⟨rfl, rfl⟩ := Prod.mk.inj (Option.some.inj found)
      exact ⟨rfl, rfl⟩
    | case2 => cases found
    | case3 c t n fits ih =>
      obtain ⟨⟨z, w⟩, rest, same⟩ := Option.map_eq_some_iff.mp found
      obtain ⟨rfl, rfl⟩ := Prod.mk.inj same
      obtain ⟨rfl, size⟩ := ih rest
      exact ⟨rfl, by rw [byteSize_cons]; omega⟩
    | case4 => cases found
  · rintro ⟨rfl, rfl⟩
    exact splitBytes?_append x y

def upTo? (t : Text) (n : Nat) : Option Text := (t.splitBytes? n).map Prod.fst

def from? (t : Text) (n : Nat) : Option Text := (t.splitBytes? n).map Prod.snd

/-- There is a slice from an offset on only if whole characters make up the text before it. -/
theorem from?_eq_some : t.from? n = some y ↔ ∃ x, t = x ++ y ∧ byteSize x = n := by
  simp only [from?, Option.map_eq_some_iff, Prod.exists, splitBytes?_eq_some]
  constructor
  · rintro ⟨x, y, split, rfl⟩
    exact ⟨x, split⟩
  · rintro ⟨x, split⟩
    exact ⟨x, y, split, rfl⟩

/-- An offset goes on by the size of what stands there. -/
theorem from?_add (here : t.from? n = some (x ++ y)) : t.from? (n + byteSize x) = some y := by
  obtain ⟨before, rfl, rfl⟩ := from?_eq_some.mp here
  exact from?_eq_some.mpr ⟨before ++ x, by rw [List.append_assoc], byteSize_append before x⟩

theorem from?_byteSize (x y : Text) : from? (x ++ y) (byteSize x) = some y :=
  from?_eq_some.mpr ⟨x, rfl, rfl⟩

theorem upTo?_takeWhile (p : Char → Bool) (t : Text) :
    t.upTo? (byteSize (t.takeWhile p)) = some (t.takeWhile p) := by
  have split := splitBytes?_append (t.takeWhile p) (t.dropWhile p)
  rw [List.takeWhile_append_dropWhile] at split
  rw [upTo?, split]
  rfl

end Restyle.Text
