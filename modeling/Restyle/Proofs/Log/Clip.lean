import Restyle.Log.Event
import Restyle.Proofs.Text.Utf8

/-!
# Cut messages

A message that is too large is cut where its last character that still fits ends. That place is also
found from behind, by going back from the bound until no character is cut in two (`boundaryBefore?`).
-/

namespace Restyle.Log.Event
variable {size n cut max : Nat} {t x : Text} {message kept : String}

/-- The last place at or before `cut` where a character of the message starts or the message ends. There
is no result if the search would have to go below zero. -/
def boundaryBefore? (message : String) : Nat → Option Nat
  | 0 => if (⟨0⟩ : String.Pos.Raw).isValid message then some 0 else none
  | cut + 1 =>
    if (⟨cut + 1⟩ : String.Pos.Raw).isValid message then some (cut + 1)
    else boundaryBefore? message cut

/-- Whole characters from the front of the message, as many of them as fit into `max` bytes. -/
structure LongestFit (max : Nat) (message kept : String) : Prop where
  front : kept.toList <+: message.toList
  fits : kept.utf8ByteSize ≤ max
  longest (x : String) :
    x.toList <+: message.toList → x.utf8ByteSize ≤ max → x.toList <+: kept.toList

/-! ### Characters that fit -/

theorem fitting_isPrefix (size : Nat) (t : Text) : fitting size t <+: t := by
  fun_induction fitting size t with
  | case1 => exact List.nil_prefix
  | case2 size c rest fits ih => exact (List.prefix_cons_inj c).mpr ih
  | case3 => exact List.nil_prefix

theorem byteSize_fitting_le (size : Nat) (t : Text) : (fitting size t).byteSize ≤ size := by
  fun_induction fitting size t with
  | case1 => exact Nat.zero_le _
  | case2 size c rest fits ih =>
    rw [Text.byteSize_cons]
    omega
  | case3 => exact Nat.zero_le _

theorem prefix_fitting (front : x <+: t) (fits : x.byteSize ≤ size) : x <+: fitting size t := by
  induction x generalizing size t with
  | nil => exact List.nil_prefix
  | cons c x ih =>
    obtain ⟨rest, rfl⟩ := front
    rw [Text.byteSize_cons] at fits
    rw [List.cons_append, fitting, if_pos (by omega), List.prefix_cons_inj]
    exact ih (List.prefix_append x rest) (by omega)

theorem le_byteSize_fitting (large : size < t.byteSize) : size ≤ (fitting size t).byteSize + 3 := by
  fun_induction fitting size t with
  | case1 => exact (Nat.not_lt_zero _ large).elim
  | case2 size c rest fits ih =>
    rw [Text.byteSize_cons] at large ⊢
    have behind := ih (by omega)
    omega
  | case3 size c rest wide =>
    -- `c` has at most four bytes and does not fit, so at most three are left
    have most := c.utf8Size_le_four
    omega

theorem longestFit_fitting (max : Nat) (message : String) :
    LongestFit max message (String.ofList (fitting max message.toList)) where
  front := by
    rw [String.toList_ofList]
    exact fitting_isPrefix max message.toList
  fits := by
    rw [Text.utf8ByteSize_ofList]
    exact byteSize_fitting_le max message.toList
  longest x front fits := by
    rw [String.toList_ofList]
    rw [← Text.byteSize_toList] at fits
    exact prefix_fitting front fits

/-! ### The search from behind -/

theorem isValid_iff_exists_front : (⟨n⟩ : String.Pos.Raw).isValid message = true ↔
    ∃ x : String, x.toList <+: message.toList ∧ x.utf8ByteSize = n := by
  rw [String.Pos.Raw.isValid_eq_true_iff, String.Pos.Raw.isValid_iff_exists_append]
  constructor
  · rintro ⟨x, rest, rfl, place⟩
    refine ⟨x, ?_, ?_⟩
    · rw [String.toList_append]
      exact List.prefix_append ..
    · exact (congrArg String.Pos.Raw.byteIdx place).symm
  · rintro ⟨x, ⟨rest, split⟩, rfl⟩
    refine ⟨x, String.ofList rest, ?_, rfl⟩
    rw [← String.toList_inj, String.toList_append, String.toList_ofList, split]

theorem boundaryBefore?_eq (valid : (⟨n⟩ : String.Pos.Raw).isValid message = true) (le : n ≤ cut)
    (last : ∀ m, n < m → m ≤ cut → (⟨m⟩ : String.Pos.Raw).isValid message = false) :
    boundaryBefore? message cut = some n := by
  induction cut with
  | zero =>
    obtain rfl : n = 0 := Nat.le_zero.mp le
    rw [boundaryBefore?, if_pos valid]
  | succ cut ih =>
    by_cases here : n = cut + 1
    · subst here
      rw [boundaryBefore?, if_pos valid]
    · have inside := last (cut + 1) (by omega) (Nat.le_refl _)
      rw [boundaryBefore?, inside, if_neg Bool.false_ne_true]
      exact ih (by omega) fun m above below => last m above (by omega)

theorem boundaryBefore?_of_longestFit (fit : LongestFit max message kept) :
    boundaryBefore? message max = some kept.utf8ByteSize := by
  refine boundaryBefore?_eq (isValid_iff_exists_front.mpr ⟨kept, fit.front, rfl⟩) fit.fits ?_
  intro m above below
  -- a boundary further on would end a longer part that fits
  rw [← Bool.not_eq_true]
  intro valid
  obtain ⟨x, front, rfl⟩ := isValid_iff_exists_front.mp valid
  have smaller := Text.byteSize_mono (fit.longest x front below)
  rw [Text.byteSize_toList, Text.byteSize_toList] at smaller
  omega

/-- An event has the whole message or its longest part that fits and an ellipsis. The search from behind
finds the end of that part. -/
theorem message_cut_between_characters (max : Nat) (n : Notice) :
    ∃ kept, LongestFit max n.message kept ∧
      (ofNotice max n).message =
        (if n.message.utf8ByteSize ≤ max then n.message else kept ++ "...") ∧
      (max < n.message.utf8ByteSize → max ≤ kept.utf8ByteSize + 3) ∧
      boundaryBefore? n.message max = some kept.utf8ByteSize := by
  have fit := longestFit_fitting max n.message
  refine ⟨_, fit, rfl, fun large => ?_, boundaryBefore?_of_longestFit fit⟩
  rw [← Text.byteSize_toList] at large
  rw [Text.utf8ByteSize_ofList]
  exact le_byteSize_fitting large

/-- A character of four bytes of which only three fit. -/
theorem message_cut_between_characters_wide :
    4 < "a😀b".utf8ByteSize ∧ (ofNotice 4 (.warning "a😀b")).message = "a..." ∧
    LongestFit 4 "a😀b" "a" ∧ 4 ≤ "a".utf8ByteSize + 3 ∧ boundaryBefore? "a😀b" 4 = some 1 := by
  have large : 4 < "a😀b".utf8ByteSize := by decide
  have stored : (ofNotice 4 (.warning "a😀b")).message = "a..." := by decide
  obtain ⟨kept, fit, message, most, found⟩ := message_cut_between_characters 4 (.warning "a😀b")
  obtain rfl : kept = "a" := by
    have cut := message.symm.trans stored
    rw [if_neg (by exact Nat.not_le.mpr large)] at cut
    exact (String.append_left_inj "...").mp cut
  exact ⟨large, stored, fit, most large, found⟩

end Restyle.Log.Event
