import Mathlib.Computability.Language
import Restyle.Text

/-!
# Longest words

A scanner that measures the longest word of a language at the front of a text. Scanners are put together
as the languages are: of two alternatives the larger measure counts (`Longest.add`), and of two parts in
a row the second is measured behind the first (`Longest.mul`). The latter gives the longest word only if
the first scanner stops where a word of the second part starts.
-/

namespace Restyle.Lexer
variable {l m : Language Char} {f g : Text → Nat} {t : Text} {alphabet : String}

def oneOf (alphabet : String) : Language Char := {t | ∃ c ∈ alphabet.toList, t = [c]}

theorem mem_oneOf_mul {x : Text} :
    x ∈ oneOf alphabet * l ↔ ∃ c rest, x = c :: rest ∧ c ∈ alphabet.toList ∧ rest ∈ l := by
  rw [Language.mem_mul]
  constructor
  · rintro ⟨_, ⟨c, first, rfl⟩, rest, member, rfl⟩
    exact ⟨c, rest, rfl, first, member⟩
  · rintro ⟨c, rest, rfl, first, member⟩
    exact ⟨[c], ⟨c, first, rfl⟩, rest, member, rfl⟩

theorem nil_notMem_oneOf_mul : [] ∉ oneOf alphabet * l := by
  intro member
  obtain ⟨c, rest, empty, -⟩ := mem_oneOf_mul.mp member
  cases empty

/-- `f` measures the longest word of `l` that starts a text, and is zero if none does. -/
structure Longest (l : Language Char) (f : Text → Nat) : Prop where
  fits (t : Text) : f t ≤ t.length
  mem (t : Text) : f t ≠ 0 → t.take (f t) ∈ l
  longest (x y : Text) : x ∈ l → x.length ≤ f (x ++ y)

namespace Longest

theorem take_mem (first : Longest l f) (t : Text) : t.take (f t) ∈ 1 + l := by
  by_cases none : f t = 0
  · rw [none, List.take_zero]
    exact .inl rfl
  · exact .inr (first.mem t none)

theorem add (first : Longest l f) (second : Longest m g) :
    Longest (l + m) fun t => max (f t) (g t) where
  fits t := Nat.max_le.mpr ⟨first.fits t, second.fits t⟩
  mem t some := by
    rcases Nat.le_total (f t) (g t) with le | le
    · rw [Nat.max_eq_right le] at some ⊢
      exact .inr (second.mem t some)
    · rw [Nat.max_eq_left le] at some ⊢
      exact .inl (first.mem t some)
  longest x y member := by
    rcases member with left | right
    · exact Nat.le_trans (first.longest x y left) (Nat.le_max_left ..)
    · exact Nat.le_trans (second.longest x y right) (Nat.le_max_right ..)

/-- Both parts may be missing. -/
theorem mul (first : Longest l f) (second : Longest m g)
    (stops : ∀ x ∈ 1 + l, ∀ y ∈ m, y ≠ [] → ∀ z, f (x ++ (y ++ z)) = x.length) :
    Longest ((1 + l) * (1 + m)) fun t => f t + g (t.drop (f t)) where
  fits t := by
    have here := first.fits t
    have behind := second.fits (t.drop (f t))
    rw [List.length_drop] at behind
    omega
  mem t _ := by
    rw [List.take_add]
    exact Language.append_mem_mul (first.take_mem t) (second.take_mem _)
  longest w z member := by
    obtain ⟨x, inX, y, inY, rfl⟩ := Language.mem_mul.mp member
    by_cases empty : y = []
    · subst empty
      rw [List.append_nil]
      rcases inX with rfl | inX
      · exact Nat.zero_le _
      · exact Nat.le_trans (first.longest x z inX) (Nat.le_add_right ..)
    · -- the second part is there, so the first scanner ends where it starts
      have inY : y ∈ m := inY.resolve_left empty
      have length := stops x inX y inY empty z
      have behind := second.longest y z inY
      rw [List.append_assoc, length, List.drop_left, List.length_append]
      omega

def marked (alphabet : String) (f : Text → Nat) : Text → Nat
  | c :: t => if c ∈ alphabet.toList ∧ f t ≠ 0 then f t + 1 else 0
  | [] => 0

theorem marked_of_notMem {c : Char} (other : c ∉ alphabet.toList) : marked alphabet f (c :: t) = 0 := by
  rw [marked, if_neg fun both => other both.1]

theorem oneOf_mul (alphabet : String) (proper : [] ∉ l) (second : Longest l f) :
    Longest (oneOf alphabet * l) (marked alphabet f) where
  fits t := by
    cases t with
    | nil => exact Nat.le_refl 0
    | cons c t =>
      have behind := second.fits t
      rw [marked, List.length_cons]
      split <;> omega
  mem t some := by
    cases t with
    | nil => exact (some rfl).elim
    | cons c t =>
      rw [marked] at some ⊢
      split at some
      · rename_i both
        rw [if_pos both, List.take_succ_cons]
        exact mem_oneOf_mul.mpr ⟨c, _, rfl, both.1, second.mem t both.2⟩
      · exact (some rfl).elim
  longest w z member := by
    obtain ⟨c, y, rfl, inAlphabet, inY⟩ := mem_oneOf_mul.mp member
    have behind := second.longest y z inY
    have nonempty : y.length ≠ 0 := fun empty => proper (List.length_eq_zero_iff.mp empty ▸ inY)
    have both : c ∈ alphabet.toList ∧ f (y ++ z) ≠ 0 := ⟨inAlphabet, by omega⟩
    rw [List.cons_append, marked, if_pos both, List.length_cons]
    omega

end Longest

end Restyle.Lexer
