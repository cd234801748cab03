import Mathlib.Data.List.TakeWhile
import Mathlib.Tactic.ByContra
import Restyle.Lexer.Heredoc

/-!
# The header of a heredoc

A header is `<<<`, blanks, a label that may stand in quotes, and a line end (`Split`). A text has a
header exactly if it starts with these parts, and the header says where they end.
-/

namespace Restyle

theorem Text.takeWhile_append_of_head {p : Char → Bool} {x rest : Text} (inside : ∀ c ∈ x, p c = true)
    (stops : rest.head?.any p = false) :
    (x ++ rest).takeWhile p = x ∧ (x ++ rest).dropWhile p = rest := by
  rw [List.takeWhile_append_of_pos inside, List.dropWhile_append_of_pos inside]
  cases rest with
  | nil => simp
  | cons c rest =>
    rw [List.head?_cons, Option.any_some] at stops
    simp [stops]

namespace Lexer.Heredoc
variable {t label rest : Text} {header : Header}

structure Split (t start blanks quote label returns rest : Text) : Prop where
  text : t = start ++ (blanks ++ (quote ++ (label ++ (quote ++ (returns ++ '\n' :: rest)))))
  three : start.length = 3
  blank : ∀ c ∈ blanks, Text.isBlank c = true
  quoted : quote = [] ∨ quote = ['\''] ∨ quote = ['"']
  starts : startsWord label = true
  word : ∀ c ∈ label, isWordChar c = true
  return' : ∀ c ∈ returns, (c == '\r') = true

def headerOf (blanks quote label returns : Text) : Header :=
  { label, length := 3 + blanks.length + (2 * quote.length + label.length) + returns.length + 1 }

theorem quote_cases (t : Text) : openQuote t = [] ∨ openQuote t = ['\''] ∨ openQuote t = ['"'] := by
  cases t with
  | nil => exact .inl rfl
  | cons c rest =>
    simp only [openQuote]
    split
    · rename_i quote
      simp only [Bool.or_eq_true, beq_iff_eq] at quote
      rcases quote with rfl | rfl <;> simp
    · exact .inl rfl

theorem openQuote_append (t : Text) : ∃ rest, t = openQuote t ++ rest := by
  cases t with
  | nil => exact ⟨[], rfl⟩
  | cons c rest =>
    simp only [openQuote]
    split
    · exact ⟨rest, rfl⟩
    · exact ⟨c :: rest, rfl⟩

theorem exists_split (found : header? t = some header) :
    ∃ start blanks quote label returns rest, Split t start blanks quote label returns rest ∧
      header = headerOf blanks quote label returns := by
  simp only [header?] at found
  generalize blanked : (t.drop 3).dropWhile Text.isBlank = quoted at found
  generalize opened : openQuote quoted = quote at found
  generalize unquoted : quoted.drop quote.length = named at found
  generalize rested : named.dropWhile isWordChar = closed at found
  generalize left : closed.drop quote.length = ending at found
  generalize returned : ending.takeWhile (· == '\r') = returns at found
  split at found
  · rename_i complete
    simp only [Bool.and_eq_true, beq_iff_eq] at complete
    obtain ⟨⟨starts, closes⟩, ends⟩ := complete
    obtain ⟨rest, final⟩ := List.head?_eq_some_iff.mp ends
    have whole : t = t.take 3 ++ ((t.drop 3).takeWhile Text.isBlank ++ quoted) := by
      rw [← blanked, List.takeWhile_append_dropWhile, List.take_append_drop]
    have second : quoted = quote ++ named := by
      obtain ⟨more, split⟩ := openQuote_append quoted
      rw [opened] at split
      rw [← unquoted, split]
      simp
    have third : named = named.takeWhile isWordChar ++ closed := by
      rw [← rested, List.takeWhile_append_dropWhile]
    have fourth : closed = quote ++ ending := by
      obtain ⟨more, split⟩ := List.isPrefixOf_iff_prefix.mp closes
      rw [← left, ← split]
      simp
    have fifth : ending = returns ++ '\n' :: rest := by
      obtain ⟨more, split⟩ : returns <+: ending := by
        rw [← returned]
        exact List.takeWhile_prefix _
      rw [← split, List.drop_left] at final
      rw [← split, final]
    have length : 3 ≤ t.length := by
      by_contra short
      have none : t.drop 3 = [] := List.drop_eq_nil_iff.mpr (by omega)
      rw [none] at blanked
      subst blanked
      simp [← unquoted, startsWord] at starts
    refine ⟨t.take 3, (t.drop 3).takeWhile Text.isBlank, quote, named.takeWhile isWordChar, returns,
      rest, ⟨?_, ?_, ?_, ?_, ?_, ?_, ?_⟩, (Option.some.inj found).symm⟩
    · rw [← fifth, ← fourth, ← third, ← second]
      exact whole
    · rw [List.length_take]
      omega
    · exact fun c member => List.mem_takeWhile_imp member
    · rw [← opened]
      exact quote_cases quoted
    · cases named with
      | nil => cases starts
      | cons c named =>
        have first : isWordChar c = true := by
          simp only [startsWord, List.head?_cons, Option.any_some] at starts
          simp [isWordChar, starts]
        rw [List.takeWhile_cons, if_pos first]
        exact starts
    · exact fun c member => List.mem_takeWhile_imp member
    · intro c member
      rw [← returned] at member
      exact List.mem_takeWhile_imp (p := (· == '\r')) member
  · simp at found

theorem startsWord_cons {c : Char} (starts : startsWord (c :: t) = true) :
    isWordStart c = true ∧ Text.isBlank c = false ∧ c ≠ '\'' ∧ c ≠ '"' := by
  have word : isWordStart c = true := by simpa [startsWord] using starts
  refine ⟨word, ?_, ?_, ?_⟩
  · rw [Bool.eq_false_iff]
    intro blank
    simp only [Text.isBlank, Bool.or_eq_true, beq_iff_eq] at blank
    rcases blank with rfl | rfl <;> revert word <;> decide
  · rintro rfl
    revert word
    decide
  · rintro rfl
    revert word
    decide

theorem header?_of_split {start blanks quote returns : Text}
    (split : Split t start blanks quote label returns rest) :
    header? t = some (headerOf blanks quote label returns) := by
  obtain ⟨text, three, blank, quoted, starts, word, return'⟩ := split
  obtain ⟨c, more, rfl⟩ : ∃ c more, label = c :: more := by
    cases label with
    | nil => cases starts
    | cons c more => exact ⟨c, more, rfl⟩
  obtain ⟨-, notBlank, notQuote, notQuote'⟩ := startsWord_cons starts
  have drop : t.drop 3 = blanks ++ (quote ++ ((c :: more) ++ (quote ++ (returns ++ '\n' :: rest)))) := by
    rw [text, ← three, List.drop_left]
  have afterBlanks : (quote ++ ((c :: more) ++ (quote ++ (returns ++ '\n' :: rest)))).head?.any
      Text.isBlank = false := by
    rcases quoted with rfl | rfl | rfl
    · simpa using notBlank
    · rfl
    · rfl
  have afterLabel : (quote ++ (returns ++ '\n' :: rest)).head?.any isWordChar = false := by
    rcases quoted with rfl | rfl | rfl
    · cases returns with
      | nil => rfl
      | cons d returns =>
        have same : d = '\r' := by simpa using return' d List.mem_cons_self
        subst same
        rfl
    · rfl
    · rfl
  have opened : openQuote (quote ++ ((c :: more) ++ (quote ++ (returns ++ '\n' :: rest)))) = quote := by
    rcases quoted with rfl | rfl | rfl
    · simp [openQuote, notQuote, notQuote']
    · rfl
    · rfl
  obtain ⟨takes, drops⟩ := Text.takeWhile_append_of_head blank afterBlanks
  obtain ⟨takesLabel, dropsLabel⟩ := Text.takeWhile_append_of_head word afterLabel
  have afterReturns : ('\n' :: rest).head?.any (· == '\r') = false := rfl
  obtain ⟨takesReturns, -⟩ := Text.takeWhile_append_of_head return' afterReturns
  have ends : (returns ++ '\n' :: rest).drop returns.length = '\n' :: rest := List.drop_left
  have named : startsWord ((c :: more) ++ (quote ++ (returns ++ '\n' :: rest))) = true := starts
  have closes : quote.isPrefixOf (quote ++ (returns ++ '\n' :: rest)) = true :=
    List.isPrefixOf_iff_prefix.mpr (List.prefix_append _ _)
  simp only [header?, drop, takes, drops, opened, List.drop_left, takesLabel, dropsLabel, takesReturns,
    named, closes, ends]
  rfl

theorem header?_bounds (found : header? t = some header) :
    0 < header.length ∧ header.length ≤ t.length := by
  obtain ⟨start, blanks, quote, label, returns, rest, split, rfl⟩ := exists_split found
  have length := congrArg List.length split.text
  simp only [List.length_append, List.length_cons, split.three] at length
  simp only [headerOf]
  omega

theorem label_of_header (found : header? t = some header) :
    startsWord header.label = true ∧ ∀ c ∈ header.label, isWordChar c = true := by
  obtain ⟨start, blanks, quote, label, returns, rest, split, rfl⟩ := exists_split found
  exact ⟨split.starts, split.word⟩

end Lexer.Heredoc

end Restyle
