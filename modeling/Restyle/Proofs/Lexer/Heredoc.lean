import Restyle.Proofs.Lexer.Reach

/-!
# How far a heredoc reaches

The header of a heredoc ends with its line, and its body with the first line that closes it. Neither
depends on what follows the closing label, unless that goes on with the label.
-/

namespace Restyle.Lexer.Heredoc
variable {t x a b label line rest : Text} {header : Header} {n k : Nat}

/-- A header does not depend on what follows its line. -/
theorem header?_append (found : header? (x ++ a) = some header) (fits : header.length ≤ x.length) :
    header? (x ++ b) = some header := by
  obtain ⟨start, blanks, quote, label, returns, rest, split, rfl⟩ := exists_split found
  have short : (start ++ (blanks ++ (quote ++ (label ++ (quote ++ (returns ++ ['\n'])))))).length ≤
      x.length := by
    simp only [headerOf] at fits
    simp only [List.length_append, List.length_cons, List.length_nil, split.three]
    omega
  have whole : x ++ a = (start ++ (blanks ++ (quote ++ (label ++ (quote ++ (returns ++ ['\n'])))))) ++
      rest := by simp [split.text]
  obtain ⟨more, rfl⟩ : start ++ (blanks ++ (quote ++ (label ++ (quote ++ (returns ++ ['\n']))))) <+: x :=
    List.prefix_of_prefix_length_le ⟨rest, whole.symm⟩ (List.prefix_append x a) short
  have text : start ++ (blanks ++ (quote ++ (label ++ (quote ++ (returns ++ ['\n']))))) ++ more ++ b =
      start ++ (blanks ++ (quote ++ (label ++ (quote ++ (returns ++ '\n' :: (more ++ b)))))) := by simp
  exact header?_of_split
    ⟨text, split.three, split.blank, split.quoted, split.starts, split.word, split.return'⟩

/-! ### Closing labels -/

section Closing
variable (starts : startsWord label = true)
include starts

theorem closingLabel?_eq_some : closingLabel? label line = some n ↔
    ∃ indent rest, line = indent ++ (label ++ rest) ∧ (∀ c ∈ indent, Text.isBlank c = true) ∧
      rest.head?.any isWordChar = false ∧ n = indent.length + label.length := by
  obtain ⟨c, more, rfl⟩ : ∃ c more, label = c :: more := by
    cases label with
    | nil => cases starts
    | cons c more => exact ⟨c, more, rfl⟩
  obtain ⟨-, notBlank, -⟩ := startsWord_cons starts
  constructor
  · intro found
    simp only [closingLabel?] at found
    split at found
    · rename_i closes
      simp only [Bool.and_eq_true, Bool.not_eq_true'] at closes
      obtain ⟨rest, split⟩ := List.isPrefixOf_iff_prefix.mp closes.1
      have behind := closes.2
      rw [← split, List.drop_left] at behind
      refine ⟨line.takeWhile Text.isBlank, rest, ?_, fun c member => List.mem_takeWhile_imp member,
        behind, (Option.some.inj found).symm⟩
      obtain ⟨tail, whole⟩ : line.takeWhile Text.isBlank <+: line := List.takeWhile_prefix _
      rw [split]
      have drops : ∀ n, n = (line.takeWhile Text.isBlank).length → line.drop n = tail := by
        intro n length
        rw [← whole, length]
        exact List.drop_left
      rw [drops _ rfl, whole]
    · cases found
  · rintro ⟨indent, rest, rfl, blank, behind, rfl⟩
    have stops : ((c :: more) ++ rest).head?.any Text.isBlank = false := by simpa using notBlank
    obtain ⟨takes, -⟩ := Text.takeWhile_append_of_head blank stops
    simp only [closingLabel?, takes, List.drop_left, behind]
    rw [List.isPrefixOf_iff_prefix.mpr (List.prefix_append _ _)]
    rfl

/-- A closing label does not depend on what follows it, unless that goes on with the label. -/
theorem closingLabel?_append (found : closingLabel? label (x ++ a) = some n) (fits : n ≤ x.length)
    (calm : n = x.length → b.head?.any isWordChar = false) :
    closingLabel? label (x ++ b) = some n := by
  obtain ⟨indent, rest, split, blank, behind, rfl⟩ := (closingLabel?_eq_some starts).mp found
  obtain ⟨more, rfl⟩ : indent ++ label <+: x := by
    refine List.prefix_of_prefix_length_le ⟨rest, ?_⟩ (List.prefix_append x a) ?_
    · rw [split, List.append_assoc]
    · rw [List.length_append]
      exact fits
  refine (closingLabel?_eq_some starts).mpr ⟨indent, more ++ b, by simp, blank, ?_, rfl⟩
  cases more with
  | nil => exact calm (by simp)
  | cons c more =>
    obtain rfl : c :: (more ++ a) = rest := by simpa using split
    exact behind

variable (word : ∀ c ∈ label, isWordChar c = true)
include word

theorem not_lineFeed_of_closingLabel? (found : closingLabel? label (x ++ a) = some n)
    (long : x.length ≤ n) : '\n' ∉ x := by
  obtain ⟨indent, rest, split, blank, -, rfl⟩ := (closingLabel?_eq_some starts).mp found
  intro member
  have inside : x <+: indent ++ label := by
    refine List.prefix_of_prefix_length_le (List.prefix_append x a) ⟨rest, ?_⟩ ?_
    · rw [split, List.append_assoc]
    · rw [List.length_append]
      exact long
  rcases List.mem_append.mp (inside.subset member) with among | among
  · have no := blank _ among
    revert no
    decide
  · have no := word _ among
    revert no
    decide

omit word in
theorem closing?_lt {fresh : Bool} (found : closing? label t fresh n = some k) : n < k := by
  induction t generalizing fresh n with
  | nil => cases found
  | cons c t ih =>
    rw [closing?] at found
    split at found
    · rename_i m closes
      obtain rfl := Option.some.inj found
      split at closes
      · obtain ⟨indent, rest, -, -, -, rfl⟩ := (closingLabel?_eq_some starts).mp closes
        have some : 0 < label.length := by
          rw [List.length_pos_iff]
          rintro rfl
          cases starts
        omega
      · cases closes
    · have later := ih found
      omega

omit word in
/-- A body is not closed in the line in which it starts. -/
theorem closing?_of_no_lineFeed (inside : '\n' ∉ x)
    (found : closing? label (x ++ a) false n = some k) : n + x.length < k := by
  induction x generalizing n with
  | nil => exact closing?_lt starts found
  | cons c x ih =>
    have other : (c == '\n') = false := by
      rw [beq_eq_false_iff_ne]
      rintro rfl
      exact inside List.mem_cons_self
    rw [List.cons_append, closing?, other] at found
    have later := ih (fun member => inside (List.mem_cons_of_mem _ member)) found
    rw [List.length_cons]
    omega

theorem closing?_append {fresh : Bool} (calm : b.head?.any isWordChar = false)
    (found : closing? label (x ++ a) fresh n = some k) (fits : k ≤ n + x.length) :
    closing? label (x ++ b) fresh n = some k := by
  induction x generalizing fresh n with
  | nil =>
    have later := closing?_lt starts found
    rw [List.length_nil] at fits
    omega
  | cons c x ih =>
    rw [List.cons_append, closing?] at found ⊢
    cases here : (if fresh then closingLabel? label (c :: (x ++ a)) else none) with
    | some m =>
      rw [here] at found
      obtain rfl := Option.some.inj found
      split at here
      · have same : closingLabel? label (c :: x ++ b) = some m :=
          closingLabel?_append starts here (by omega) fun _ => calm
        rw [if_pos (by assumption)]
        rw [List.cons_append] at same
        rw [same]
      · cases here
    | none =>
      rw [here] at found
      rw [List.length_cons] at fits
      have rest := ih found (by omega)
      -- A label that only `b` completes would end the heredoc before the place where it ends.
      have still : (if fresh then closingLabel? label (c :: (x ++ b)) else none) = none := by
        split
        · rename_i isFresh
          rw [if_pos isFresh] at here
          cases there : closingLabel? label (c :: (x ++ b)) with
          | none => rfl
          | some m =>
            rcases Nat.lt_or_ge m (c :: x).length with short | long
            · have same : closingLabel? label (c :: x ++ a) = some m :=
                closingLabel?_append starts there (by omega) (by omega)
              rw [List.cons_append, here] at same
              cases same
            · have single := not_lineFeed_of_closingLabel? starts word (x := c :: x) there long
              have other : (c == '\n') = false := by
                rw [beq_eq_false_iff_ne]
                rintro rfl
                exact single List.mem_cons_self
              rw [other] at found
              have late := closing?_of_no_lineFeed starts
                (fun member => single (List.mem_cons_of_mem _ member)) found
              omega
        · rfl
      rw [still]
      exact rest

end Closing

/-- A heredoc does not depend on what follows it, unless that goes on with the label. -/
theorem length?_append (calm : b.head?.any isWordChar = false) (headed : header? (x ++ a) = some header)
    (found : length? header (x ++ a) = some n) (fits : n ≤ x.length) :
    header? (x ++ b) = some header ∧ length? header (x ++ b) = some n := by
  obtain ⟨starts, word⟩ := label_of_header headed
  have le : header.length ≤ x.length := by
    have bounds := closing?_bounds found
    omega
  refine ⟨header?_append headed le, ?_⟩
  unfold length? at found ⊢
  rw [List.drop_append_of_le_length le] at found ⊢
  refine closing?_append starts word calm found ?_
  rw [List.length_drop]
  omega

end Restyle.Lexer.Heredoc
