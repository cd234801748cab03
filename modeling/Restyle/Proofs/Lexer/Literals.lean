import Restyle.Proofs.Lexer.Context

/-!
# Strings and comments

The strings and comments of a source, described without the scanners that look for them. Each
scanner finds the one that starts a text, and it finds none only if no part of the text fits the
description.
-/

namespace Restyle.Lexer
variable {t x y : Text} {n k : Nat}

/-! ### Quoted strings -/

namespace Quoted
variable {quote : Char}

/-- What may stand between two quotes: characters other than the quote, and pairs of a backslash and
any character. -/
inductive Body (quote : Char) : Text → Prop where
  | nil : Body quote []
  | plain {c : Char} {rest : Text} : c ≠ quote → c ≠ '\\' → Body quote rest → Body quote (c :: rest)
  | escaped {c : Char} {rest : Text} : Body quote rest → Body quote ('\\' :: c :: rest)

/-- The text is one string in quotes of this sort. -/
def IsString (quote : Char) (t : Text) : Prop :=
  ∃ body, Body quote body ∧ t = quote :: (body ++ [quote])

theorem closing?_of_body (other : quote ≠ '\\') {body : Text} (inside : Body quote body) :
    closing? quote (body ++ quote :: t) n = some (n + body.length + 1) := by
  induction inside generalizing n with
  | nil => rw [List.nil_append, closing?_cons other, if_pos (by simp)]; rfl
  | plain notQuote notEscape _ ih =>
    rw [List.cons_append, closing?_cons notEscape, if_neg (by simpa using notQuote), ih,
      List.length_cons]
    congr 1
    omega
  | escaped _ ih =>
    rw [List.cons_append, List.cons_append, closing?, ih, List.length_cons, List.length_cons]
    congr 1
    omega

theorem exists_body (found : closing? quote t n = some k) :
    ∃ body rest, t = body ++ quote :: rest ∧ Body quote body ∧ k = n + body.length + 1 := by
  fun_induction closing? quote t n with
  | case1 => cases found
  | case2 => cases found
  | case3 c rest n ih =>
    obtain ⟨body, after, rfl, inside, rfl⟩ := ih found
    exact ⟨_, after, rfl, .escaped inside, by simp only [List.length_cons]; omega⟩
  | case4 c rest n _ _ same =>
    obtain rfl := Option.some.inj found
    exact ⟨[], rest, by simpa using same, .nil, rfl⟩
  | case5 c rest n alone pair different ih =>
    obtain ⟨body, after, rfl, inside, rfl⟩ := ih found
    refine ⟨c :: body, after, rfl, .plain (by simpa using different) ?_ inside, ?_⟩
    · rintro rfl
      cases body with
      | nil => exact pair _ _ rfl rfl
      | cons d body => exact pair _ _ rfl rfl
    · simp only [List.length_cons]
      omega

/-- The scanner finds the string that starts a text. -/
theorem length?_of_isString (other : quote ≠ '\\') (string : IsString quote x) :
    length? quote (x ++ y) = some x.length := by
  obtain ⟨body, inside, rfl⟩ := string
  unfold length?
  have found := closing?_of_body (t := y) (n := 1) other inside
  simp only [List.cons_append, List.append_assoc, List.nil_append, List.tail_cons, List.length_cons,
    List.length_append, List.length_nil]
  rw [found]
  congr 1
  omega

theorem isString_of_length? (found : length? quote (quote :: t) = some n) :
    ∃ x y, quote :: t = x ++ y ∧ x.length = n ∧ IsString quote x := by
  unfold length? at found
  obtain ⟨body, rest, split, inside, rfl⟩ := exists_body found
  rw [List.tail_cons] at split
  refine ⟨quote :: (body ++ [quote]), rest, by simp [split], ?_, body, inside, rfl⟩
  simp only [List.length_cons, List.length_append, List.length_nil]
  omega

theorem not_isString_of_length? (other : quote ≠ '\\') (missing : length? quote t = none)
    (starts : x <+: t) : ¬ IsString quote x := by
  intro string
  obtain ⟨y, rfl⟩ := starts
  rw [length?_of_isString other string] at missing
  cases missing

end Quoted

/-! ### Heredocs -/

namespace Heredoc
variable {label head body after : Text} {d : Char}

/-- The first line of a heredoc, without its line feed. -/
def IsHeader (label head : Text) : Prop :=
  ∃ blanks quote returns, head = "<<<".toList ++ (blanks ++ (quote ++ (label ++ (quote ++ returns)))) ∧
    (∀ c ∈ blanks, Text.isBlank c = true) ∧ (quote = [] ∨ quote = ['\''] ∨ quote = ['"']) ∧
    startsWord label = true ∧ (∀ c ∈ label, isWordChar c = true) ∧ ∀ c ∈ returns, c = '\r'

/-- The last line of the text is the label, indented or not, and what follows does not go on with
it. -/
def Closes (label t after : Text) : Prop :=
  ∃ above blanks, t = above ++ '\n' :: (blanks ++ label) ∧ (∀ c ∈ blanks, Text.isBlank c = true) ∧
    after.head?.any isWordChar = false

/-- The text is one heredoc if `after` follows it, and it is closed by the first line that can. -/
def IsString (t after : Text) : Prop :=
  ∃ label head body, IsHeader label head ∧ t = head ++ '\n' :: body ∧
    Closes label ('\n' :: body) after ∧
    ∀ body' after', body ++ after = body' ++ after' → Closes label ('\n' :: body') after' →
      body.length ≤ body'.length

def Unclosed (t : Text) : Prop :=
  ∃ label head rest, IsHeader label head ∧ t = head ++ '\n' :: rest ∧
    ∀ body after, rest = body ++ after → ¬ Closes label ('\n' :: body) after

/-! #### Closing lines -/

theorem closes_cons : Closes label (d :: x) after ↔
    (d = '\n' ∧ ∃ blanks, x = blanks ++ label ∧ (∀ c ∈ blanks, Text.isBlank c = true) ∧
      after.head?.any isWordChar = false) ∨ Closes label x after := by
  constructor
  · rintro ⟨above, blanks, split, blank, calm⟩
    cases above with
    | nil =>
      obtain ⟨rfl, rfl⟩ := List.cons.inj split
      exact .inl ⟨rfl, blanks, rfl, blank, calm⟩
    | cons e above => exact .inr ⟨above, blanks, (List.cons.inj split).2, blank, calm⟩
  · rintro (⟨rfl, blanks, rfl, blank, calm⟩ | ⟨above, blanks, rfl, blank, calm⟩)
    · exact ⟨[], blanks, rfl, blank, calm⟩
    · exact ⟨d :: above, blanks, rfl, blank, calm⟩

theorem Closes.lineFeed_mem (closes : Closes label t after) : '\n' ∈ t := by
  obtain ⟨above, blanks, rfl, -⟩ := closes
  simp

section Closing
variable (starts : startsWord label = true)
include starts

theorem not_closes_singleton : ¬ Closes label [d] after := by
  rintro ⟨above, blanks, split, -⟩
  have lengths := congrArg List.length split
  have some : label ≠ [] := by
    rintro rfl
    cases starts
  have positive := List.length_pos_iff.mpr some
  simp only [List.length_append, List.length_cons, List.length_nil] at lengths
  omega

theorem closingLabel?_of_line {blanks : Text} (blank : ∀ c ∈ blanks, Text.isBlank c = true)
    (calm : after.head?.any isWordChar = false) :
    closingLabel? label (blanks ++ label ++ after) = some (blanks ++ label).length :=
  (closingLabel?_eq_some starts).mpr ⟨blanks, after, by simp, blank, calm, by simp⟩

/-- The scanner comes to an end at every line that closes the heredoc, if not before. -/
theorem closing?_of_closes (word : ∀ c ∈ label, isWordChar c = true)
    (closes : Closes label (d :: x) after) :
    ∃ k, closing? label (x ++ after) (d == '\n') n = some k ∧ k ≤ n + x.length := by
  induction x generalizing d n with
  | nil => exact (not_closes_singleton starts closes).elim
  | cons c x ih =>
    rw [List.cons_append, closing?]
    cases here : (if (d == '\n') = true then closingLabel? label (c :: (x ++ after)) else none) with
    | some m =>
      refine ⟨n + m, rfl, Nat.add_le_add_left ?_ n⟩
      have found : closingLabel? label (c :: x ++ after) = some m := by
        split at here
        · exact here
        · cases here
      rcases closes_cons.mp closes with ⟨-, blanks, split, blank, calm⟩ | later
      · have line := closingLabel?_of_line starts blank calm
        rw [← split, found] at line
        exact Nat.le_of_eq (Option.some.inj line)
      · by_contra long
        exact not_lineFeed_of_closingLabel? starts word found (by omega) later.lineFeed_mem
    | none =>
      rcases closes_cons.mp closes with ⟨rfl, blanks, split, blank, calm⟩ | later
      · have line := closingLabel?_of_line starts blank calm
        rw [← split] at line
        rw [if_pos (by rfl), ← List.cons_append, line] at here
        cases here
      · obtain ⟨k, found, bound⟩ := ih (n := n + 1) later
        refine ⟨k, found, ?_⟩
        rw [List.length_cons]
        omega

/-- The place where the scanner ends is the end of a line that closes the heredoc. -/
theorem exists_closes (found : closing? label t (d == '\n') n = some k) :
    ∃ x after, t = x ++ after ∧ k = n + x.length ∧ Closes label (d :: x) after := by
  induction t generalizing d n with
  | nil => cases found
  | cons c t ih =>
    rw [closing?] at found
    split at found
    · rename_i m here
      obtain rfl := Option.some.inj found
      split at here
      · rename_i fresh
        obtain ⟨blanks, after, split, blank, calm, rfl⟩ := (closingLabel?_eq_some starts).mp here
        refine ⟨blanks ++ label, after, by rw [split, List.append_assoc], by simp, ?_⟩
        exact closes_cons.mpr (.inl ⟨by simpa using fresh, blanks, rfl, blank, calm⟩)
      · cases here
    · obtain ⟨x, after, rfl, rfl, closes⟩ := ih found
      refine ⟨c :: x, after, rfl, ?_, closes_cons.mpr (.inr closes)⟩
      rw [List.length_cons]
      omega

end Closing

/-! #### From the header on -/

variable {header : Header}

section Opened
variable (opens : "<<<".toList.isPrefixOf t = true) (headed : header? t = some header)
include opens headed

theorem exists_header : ∃ head rest, IsHeader header.label head ∧ t = head ++ '\n' :: rest ∧
    header.length = head.length + 1 ∧ t.drop header.length = rest := by
  obtain ⟨start, blanks, quote, label, returns, rest, split, rfl⟩ := exists_split headed
  obtain ⟨more, marked⟩ := List.isPrefixOf_iff_prefix.mp opens
  obtain ⟨rfl, -⟩ := List.append_inj (marked.trans split.text) split.three.symm
  have isHeader : IsHeader label
      ("<<<".toList ++ (blanks ++ (quote ++ (label ++ (quote ++ returns))))) :=
    ⟨blanks, quote, returns, rfl, split.blank, split.quoted, split.starts, split.word,
      fun c member => by simpa using split.return' c member⟩
  have text : t = "<<<".toList ++ (blanks ++ (quote ++ (label ++ (quote ++ returns)))) ++
      '\n' :: rest := by
    rw [split.text]
    simp
  have length : (headerOf blanks quote label returns).length =
      ("<<<".toList ++ (blanks ++ (quote ++ (label ++ (quote ++ returns))))).length + 1 := by
    have three : "<<<".toList.length = 3 := rfl
    simp only [headerOf, List.length_append, three]
    omega
  refine ⟨_, rest, isHeader, text, length, ?_⟩
  rw [length, text, List.drop_append]
  simp

theorem isString_of_length? (found : length? header t = some n) :
    ∃ x y, t = x ++ y ∧ x.length = n ∧ IsString x y := by
  obtain ⟨head, rest, isHeader, rfl, length, body⟩ := exists_header opens headed
  obtain ⟨starts, word⟩ := label_of_header headed
  unfold length? at found
  rw [body] at found
  obtain ⟨x, after, rfl, rfl, closes⟩ := exists_closes (d := '\n') starts found
  refine ⟨head ++ '\n' :: x, after, by simp, ?_, header.label, head, x, isHeader, rfl, closes, ?_⟩
  · simp only [length, List.length_append, List.length_cons]
    omega
  · intro body' after' split closes'
    obtain ⟨k, found', bound⟩ := closing?_of_closes (n := header.length) starts word closes'
    rw [← split] at found'
    have same := Option.some.inj (found.symm.trans found')
    omega

theorem unclosed_of_length? (missing : length? header t = none) : Unclosed t := by
  obtain ⟨head, rest, isHeader, rfl, -, body⟩ := exists_header opens headed
  obtain ⟨starts, word⟩ := label_of_header headed
  unfold length? at missing
  rw [body] at missing
  refine ⟨header.label, head, rest, isHeader, rfl, ?_⟩
  rintro body after rfl closes
  obtain ⟨k, found, -⟩ := closing?_of_closes (n := header.length) starts word closes
  have same := found.symm.trans missing
  cases same

end Opened

end Heredoc

/-! ### Comments -/

namespace Comment

/-- The text is one comment up to the end of its line if `after` follows it. -/
structure IsLine (t after : Text) : Prop where
  opens : "//".toList <+: t ∨ "#".toList <+: t ∧ ¬ "#[".toList <+: t ++ after
  inside : '\n' ∉ t ∧ '\r' ∉ t ∧ ¬ "?>".toList <:+: t
  ends : after = [] ∨ after.head? = some '\n' ∨ after.head? = some '\r' ∨ "?>".toList <+: after

/-- The text is one comment up to the first mark that closes it. -/
def IsBlock (t : Text) : Prop :=
  ∃ body, t = "/*".toList ++ (body ++ "*/".toList) ∧ ¬ "*/".toList <:+: body ++ ['*']

theorem closesBlock_mark : closesBlock ("*/".toList ++ t) = true :=
  List.isPrefixOf_iff_prefix.mpr (List.prefix_append _ _)

theorem not_infix_of_blockLength? (missing : blockLength? t = none) :
    ¬ "*/".toList <:+: t.drop 2 := by
  rintro ⟨left, right, split⟩
  have never := Text.seek?_go_eq_none.mp (Option.map_eq_none_iff.mp missing)
  have here := never left.length (by rw [← split]; simp)
  rw [← split, List.append_assoc, List.drop_left, closesBlock_mark] at here
  cases here

theorem isBlock_of_blockLength? (opens : "/*".toList.isPrefixOf t = true)
    (found : blockLength? t = some n) : ∃ x y, t = x ++ y ∧ x.length = n ∧ IsBlock x := by
  obtain ⟨k, sought, rfl⟩ := Option.map_eq_some_iff.mp found
  obtain ⟨fits, closes, before⟩ := Text.seek?_eq_some.mp sought
  obtain ⟨inner, rfl⟩ := List.isPrefixOf_iff_prefix.mp opens
  have dropped : ("/*".toList ++ inner).drop 2 = inner := rfl
  rw [dropped] at fits closes before
  obtain ⟨y, rest⟩ := List.isPrefixOf_iff_prefix.mp closes
  have length : (inner.take k).length = k := by rw [List.length_take]; omega
  have split : inner = inner.take k ++ ("*/".toList ++ y) := by rw [rest, List.take_append_drop]
  refine ⟨"/*".toList ++ (inner.take k ++ "*/".toList), y, ?_, ?_, inner.take k, rfl, ?_⟩
  · rw [List.append_assoc, List.append_assoc, ← split]
  · simp only [List.length_append, length]
    show 2 + (k + 2) = k + 4
    omega
  · -- An earlier mark would have been found first.
    rintro ⟨left, right, early⟩
    have lengths := congrArg List.length early
    simp only [List.length_append, length] at lengths
    change left.length + 2 + right.length = k + 1 at lengths
    have whole : inner = left ++ ("*/".toList ++ (right ++ '/' :: y)) := by
      calc inner = (inner.take k ++ ['*']) ++ '/' :: y := by rw [List.append_assoc]; exact split
        _ = left ++ ("*/".toList ++ (right ++ '/' :: y)) := by rw [← early]; simp
    have here := before left.length (by omega)
    rw [whole, List.drop_left, closesBlock_mark] at here
    cases here

theorem isLine_of_lineLength (opens : "//".toList <+: t ∨ "#".toList <+: t ∧ ¬ "#[".toList <+: t) :
    ∃ x y, t = x ++ y ∧ x.length = lineLength t ∧ IsLine x y := by
  obtain ⟨fits, before, here⟩ := Text.seek_eq.mp (show Text.seek endsLine t = lineLength t from rfl)
  generalize counted : lineLength t = n at fits before here
  have length : (t.take n).length = n := by rw [List.length_take]; omega
  have whole := (List.take_append_drop n t).symm
  -- Nothing ends the line before the comment does.
  have quiet : ∀ left right, t.take n = left ++ right → right ≠ [] →
      endsLine (right ++ t.drop n) = false := by
    intro left right split nonempty
    have some := List.length_pos_iff.mpr nonempty
    have lengths := congrArg List.length split
    rw [length, List.length_append] at lengths
    have goes := before left.length (by omega)
    rwa [whole, split, List.append_assoc, List.drop_left] at goes
  have unbroken : ∀ c ∈ t.take n, c ≠ '\n' ∧ c ≠ '\r' := by
    intro c member
    obtain ⟨left, right, split⟩ := List.append_of_mem member
    have goes := quiet left _ split (by simp)
    rw [List.cons_append, endsLine_cons] at goes
    simp only [Bool.or_eq_false_iff, beq_eq_false_iff_ne] at goes
    exact goes.1
  refine ⟨t.take n, t.drop n, whole, length, ?_, ⟨?_, ?_, ?_⟩, ?_⟩
  · rw [← whole]
    refine opens.imp (fun slashes => ?_) (fun ⟨hash, single⟩ => ⟨?_, single⟩)
    · refine List.prefix_of_prefix_length_le slashes (List.take_prefix n t) ?_
      rw [length, ← counted]
      exact two_le_lineLength (List.isPrefixOf_iff_prefix.mpr slashes)
    · refine List.prefix_of_prefix_length_le hash (List.take_prefix n t) ?_
      rw [length, ← counted]
      obtain ⟨rest, rfl⟩ := hash
      exact (lineLength_bounds (by simp) (endsLine_of_opens (.inl rfl))).1
  · exact fun member => (unbroken _ member).1 rfl
  · exact fun member => (unbroken _ member).2 rfl
  · rintro ⟨left, right, split⟩
    rw [List.append_assoc] at split
    have goes := quiet left _ split.symm (by simp)
    cases goes
  · cases rest : t.drop n with
    | nil => exact .inl rfl
    | cons c rest' =>
      have ends := here (by
        have lengths := congrArg List.length rest
        simp only [List.length_drop, List.length_cons] at lengths
        omega)
      rw [rest, endsLine_cons] at ends
      simp only [Bool.or_eq_true, Bool.and_eq_true, beq_iff_eq] at ends
      rcases ends with (rfl | rfl) | ⟨rfl, close⟩
      · exact .inr (.inl rfl)
      · exact .inr (.inr (.inl rfl))
      · obtain ⟨after, rfl⟩ := List.head?_eq_some_iff.mp close
        exact .inr (.inr (.inr ⟨after, rfl⟩))

end Comment

end Restyle.Lexer
