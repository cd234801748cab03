import Restyle.Proofs.Lexer.Failures
import Restyle.Proofs.Text

/-!
# Heredocs by byte offsets

`Scanned` says what the scanner of heredocs answers, without scanning (`cutHeredoc_iff`). `cutAt` is
the same scan on text that is stored as bytes: it adds up offsets from the sizes of the parts, and a
slice inside a character has no result. `cutAt_eq` says that all its slices have one.
-/

namespace Restyle

namespace Lexer.Heredoc
variable {limits : Limits} {line n : Nat} {t x y label head rest : Text} {cut : Cut}

/-! ### What the scanner answers -/

/-- The answers of the scanner to a text that starts with `<<<`. -/
inductive Scanned (limits : Limits) (line : Nat) (t : Text) : Cut → Prop where
  | shift : (∀ label head rest, IsHeader label head → t ≠ head ++ '\n' :: rest) →
      Scanned limits line t (.ok (.operator, 2))
  | closed {x y : Text} : t = x ++ y → IsString x y → Text.byteSize x ≤ limits.stringBytes →
      Scanned limits line t (.ok (.stringLiteral, x.length))
  | large {x y : Text} : t = x ++ y → IsString x y → limits.stringBytes < Text.byteSize x →
      Scanned limits line t (.error (.stringLimit (Text.byteSize x) limits.stringBytes))
  | unclosed : Unclosed t → Scanned limits line t (.error (.openString line))

theorem IsHeader.isLabel (isHeader : IsHeader label head) :
    startsWord label = true ∧ ∀ c ∈ label, isWordChar c = true := by
  obtain ⟨blanks, quote, returns, -, -, -, starts, word, -⟩ := isHeader
  exact ⟨starts, word⟩

theorem header?_of_isHeader (isHeader : IsHeader label head) (rest : Text) :
    header? (head ++ '\n' :: rest) = some { label, length := head.length + 1 } := by
  obtain ⟨blanks, quote, returns, rfl, blank, quoted, starts, word, return'⟩ := isHeader
  have split : Split ("<<<".toList ++ (blanks ++ (quote ++ (label ++ (quote ++ returns)))) ++
      '\n' :: rest) "<<<".toList blanks quote label returns rest :=
    ⟨by simp, rfl, blank, quoted, starts, word, fun c member => by simpa using return' c member⟩
  rw [header?_of_split split, headerOf]
  have three : "<<<".toList.length = 3 := rfl
  simp only [List.length_append, three]
  congr 2
  omega

theorem length?_of_isHeader (rest : Text) :
    length? { label, length := head.length + 1 } (head ++ '\n' :: rest) =
      closing? label rest true (head.length + 1) := by
  have body : (head ++ '\n' :: rest).drop (head.length + 1) = rest := by
    rw [List.drop_append]
    simp
  rw [length?, body]

theorem length?_of_isString (string : IsString x y) :
    ∃ header, header? (x ++ y) = some header ∧ length? header (x ++ y) = some x.length := by
  obtain ⟨label, head, body, isHeader, rfl, closes, first⟩ := string
  obtain ⟨starts, word⟩ := isHeader.isLabel
  rw [List.append_assoc, List.cons_append]
  refine ⟨_, header?_of_isHeader isHeader _, ?_⟩
  rw [length?_of_isHeader]
  obtain ⟨k, found, bound⟩ := closing?_of_closes (n := head.length + 1) starts word closes
  obtain ⟨body', after', split, rfl, closes'⟩ := exists_closes (d := '\n') starts found
  have least := first body' after' split closes'
  rw [show true = ('\n' == '\n') from rfl, found, List.length_append, List.length_cons]
  congr 1
  omega

theorem length?_of_unclosed (unclosed : Unclosed t) :
    ∃ header, header? t = some header ∧ length? header t = none := by
  obtain ⟨label, head, rest, isHeader, rfl, never⟩ := unclosed
  obtain ⟨starts, -⟩ := isHeader.isLabel
  refine ⟨_, header?_of_isHeader isHeader _, ?_⟩
  rw [length?_of_isHeader, Option.eq_none_iff_forall_ne_some]
  intro k found
  obtain ⟨body, after, split, -, closes⟩ := exists_closes (d := '\n') starts found
  exact never body after split closes

theorem scanned_cutHeredoc (opens : "<<<".toList.isPrefixOf t = true) :
    Scanned limits line t (cutHeredoc limits line t) := by
  unfold cutHeredoc
  cases headed : header? t with
  | none =>
    refine .shift fun label head rest isHeader split => ?_
    rw [split, header?_of_isHeader isHeader] at headed
    cases headed
  | some header =>
    cases found : length? header t with
    | none =>
      simp only [found]
      exact .unclosed (unclosed_of_length? opens headed found)
    | some n =>
      obtain ⟨x, y, split, rfl, string⟩ := isString_of_length? opens headed found
      simp only [found, cutString]
      rw [split, List.take_left]
      split
      · rename_i larger
        exact .large rfl string larger
      · rename_i fits
        exact .closed rfl string (Nat.le_of_not_lt fits)

theorem Scanned.cutHeredoc_eq (opens : "<<<".toList.isPrefixOf t = true)
    (scanned : Scanned limits line t cut) : cutHeredoc limits line t = cut := by
  unfold cutHeredoc
  cases scanned with
  | shift none =>
    cases headed : header? t with
    | none => rfl
    | some header =>
      obtain ⟨head, rest, isHeader, split, -⟩ := exists_header opens headed
      exact (none _ head rest isHeader split).elim
  | closed split string fits =>
    obtain ⟨header, headed, found⟩ := length?_of_isString string
    rw [split, headed]
    simp only [found, cutString, List.take_left]
    rw [if_neg (Nat.not_lt.mpr fits)]
  | large split string larger =>
    obtain ⟨header, headed, found⟩ := length?_of_isString string
    rw [split, headed]
    simp only [found, cutString, List.take_left]
    rw [if_pos larger]
  | unclosed unclosed =>
    obtain ⟨header, headed, missing⟩ := length?_of_unclosed unclosed
    rw [headed]
    simp only [missing]

theorem cutHeredoc_iff (opens : "<<<".toList.isPrefixOf t = true) :
    cutHeredoc limits line t = cut ↔ Scanned limits line t cut := by
  constructor
  · rintro rfl
    exact scanned_cutHeredoc opens
  · exact Scanned.cutHeredoc_eq opens

/-! ### The header -/

/-- The size of the line end that starts the text. The outer option is for the slices, the inner one
for the line end. -/
def lineEndAt? (t : Text) : Option (Option Nat) := do
  if !t.hasLineFeed then return none
  let line ← t.upTo? (Text.byteSize (t.takeWhile (· != '\n')))
  if !line.all (· == '\r') then return none
  return some (Text.byteSize line + 1)

def headerAt? (t : Text) : Option (Option (Text × Nat)) := do
  let offset := 3
  let offset := offset + Text.byteSize ((← t.from? offset).takeWhile Text.isBlank)
  let quote := openQuote (← t.from? offset)
  let offset := offset + Text.byteSize quote
  let named ← t.from? offset
  if !startsWord named then return none
  let label ← named.upTo? (Text.byteSize (named.takeWhile isWordChar))
  let offset := offset + Text.byteSize label
  if !quote.isPrefixOf (← t.from? offset) then return none
  let offset := offset + Text.byteSize quote
  return (← lineEndAt? (← t.from? offset)).map fun size => (label, offset + size)

theorem returns_iff (t : Text) :
    (t.drop (t.takeWhile (· == '\r')).length).head? = some '\n' ↔
      t.hasLineFeed = true ∧ (t.takeWhile (· != '\n')).all (· == '\r') = true := by
  induction t with
  | nil => simp [Text.hasLineFeed]
  | cons c t ih =>
    by_cases feed : c = '\n'
    · subst feed
      simp [Text.hasLineFeed]
    by_cases return' : c = '\r'
    · subst return'
      simpa [Text.hasLineFeed] using ih
    · simp [feed, return']

theorem exists_line (feed : t.hasLineFeed = true) :
    ∃ rest, t = t.takeWhile (· != '\n') ++ '\n' :: rest := by
  have split := List.takeWhile_append_dropWhile (p := (· != '\n')) (l := t)
  cases dropped : t.dropWhile (· != '\n') with
  | nil =>
    have none := List.dropWhile_eq_nil_iff.mp dropped '\n' (by simpa [Text.hasLineFeed] using feed)
    simp at none
  | cons c rest =>
    have stops := List.head?_dropWhile_not (· != '\n') t
    rw [dropped] at stops
    obtain rfl : c = '\n' := by simpa using stops
    exact ⟨rest, by rw [← dropped, split]⟩

theorem takeWhile_returns (feed : t.hasLineFeed = true)
    (only : (t.takeWhile (· != '\n')).all (· == '\r') = true) :
    t.takeWhile (· == '\r') = t.takeWhile (· != '\n') := by
  obtain ⟨rest, split⟩ := exists_line feed
  have inside := List.all_eq_true.mp only
  generalize t.takeWhile (· != '\n') = line at split inside ⊢
  rw [split]
  exact (Text.takeWhile_append_of_head inside rfl).1

theorem lineEndAt?_eq (t : Text) :
    lineEndAt? t = some (if (t.drop (t.takeWhile (· == '\r')).length).head? = some '\n' then
      some (Text.byteSize (t.takeWhile (· == '\r')) + 1) else none) := by
  simp only [lineEndAt?, Text.upTo?_takeWhile, Option.bind_eq_bind, Option.bind_some, returns_iff]
  by_cases feed : t.hasLineFeed = true
  · by_cases only : (t.takeWhile (· != '\n')).all (· == '\r') = true
    · rw [takeWhile_returns feed only, if_neg (by simp [feed]), if_neg (by simp [only]),
        if_pos ⟨feed, only⟩]
      rfl
    · rw [if_neg (by simp [feed]), if_pos (by simpa using only), if_neg fun ends => only ends.2]
      rfl
  · rw [if_pos (by simpa using feed), if_neg fun ends => feed ends.1]
    rfl

theorem byteSize_header (blanks quote label returns rest : Text) :
    Text.byteSize (("<<<".toList ++ (blanks ++ (quote ++ (label ++ (quote ++
      (returns ++ '\n' :: rest)))))).take (headerOf blanks quote label returns).length) =
    3 + Text.byteSize blanks + Text.byteSize quote + Text.byteSize label + Text.byteSize quote +
      (Text.byteSize returns + 1) := by
  have three : "<<<".toList.length = 3 := rfl
  have sizes : Text.byteSize "<<<".toList = 3 ∧ Text.byteSize ['\n'] = 1 := ⟨rfl, rfl⟩
  have length : (headerOf blanks quote label returns).length =
      ("<<<".toList ++
        (blanks ++ (quote ++ (label ++ (quote ++ (returns ++ ['\n'])))))).length := by
    simp only [headerOf, List.length_append, List.length_singleton, three]
    omega
  have whole : "<<<".toList ++
        (blanks ++ (quote ++ (label ++ (quote ++ (returns ++ '\n' :: rest))))) =
      ("<<<".toList ++
        (blanks ++ (quote ++ (label ++ (quote ++ (returns ++ ['\n'])))))) ++ rest := by
    simp only [List.append_assoc, List.singleton_append]
  rw [whole, length, List.take_left]
  simp only [Text.byteSize_append, sizes]
  omega

theorem headerAt?_eq (opens : "<<<".toList <+: t) :
    headerAt? t = some ((header? t).map fun h => (h.label, Text.byteSize (t.take h.length))) := by
  obtain ⟨after, text⟩ := opens
  have dropped : t.drop 3 = after := by rw [← text]; rfl
  have atBlanks : t.from? 3 = some after := Text.from?_eq_some.mpr ⟨"<<<".toList, text.symm, rfl⟩
  simp only [headerAt?, header?, atBlanks, dropped, Option.bind_eq_bind, Option.bind_some]
  -- Both scans take the same parts off, one after another.
  have blanked := List.takeWhile_append_dropWhile (p := Text.isBlank) (l := after)
  generalize after.takeWhile Text.isBlank = blanks at blanked ⊢
  generalize after.dropWhile Text.isBlank = quoted at blanked ⊢
  subst blanked
  have atQuote := Text.from?_add atBlanks
  simp only [atQuote, Option.bind_some]
  obtain ⟨named, unquoted⟩ := openQuote_append quoted
  generalize openQuote quoted = quote at unquoted ⊢
  subst unquoted
  have atLabel := Text.from?_add atQuote
  simp only [atLabel, List.drop_left, Text.upTo?_takeWhile, Option.bind_some]
  have worded := List.takeWhile_append_dropWhile (p := isWordChar) (l := named)
  generalize named.takeWhile isWordChar = label at worded ⊢
  generalize named.dropWhile isWordChar = closed at worded ⊢
  cases starts : startsWord named with
  | false => simp
  | true =>
    subst worded
    have atClose := Text.from?_add atLabel
    simp only [atClose, Option.bind_some]
    cases closes : quote.isPrefixOf closed with
    | false => simp
    | true =>
      obtain ⟨ending, rfl⟩ := List.isPrefixOf_iff_prefix.mp closes
      have atEnd := Text.from?_add atClose
      simp only [atEnd, Option.bind_some, List.drop_left, lineEndAt?_eq]
      simp only [Bool.not_true, Bool.false_eq_true, if_false, Bool.and_self, Bool.true_and,
        beq_iff_eq]
      obtain ⟨tail, returned⟩ := List.takeWhile_prefix (· == '\r') (l := ending)
      generalize ending.takeWhile (· == '\r') = returns at returned ⊢
      subst returned
      rw [List.drop_left]
      split
      · rename_i ends
        obtain ⟨rest, rfl⟩ := List.head?_eq_some_iff.mp ends
        rw [← text]
        exact congrArg (fun n => some (some (label, n)))
          (byteSize_header blanks quote label returns rest).symm
      · rfl

/-! ### The closing label -/

def closingLabelAt? (label line : Text) : Option (Option Nat) := do
  let indent := Text.byteSize (line.takeWhile Text.isBlank)
  let candidate ← line.from? indent
  if !label.isPrefixOf candidate then return none
  if (← candidate.from? (Text.byteSize label)).head?.any isWordChar then return none
  return some (indent + Text.byteSize label)

/-- The offset behind the first closing label, looked for line by line from `start` on. -/
def closingAt? (label t : Text) : Nat → Nat → Option (Option Nat)
  | 0, _ => none
  | fuel + 1, start => do
    let line ← t.from? start
    match ← closingLabelAt? label line with
    | some size => return some (start + size)
    | none =>
      if !line.hasLineFeed then return none
      closingAt? label t fuel (start + (Text.byteSize (line.takeWhile (· != '\n')) + 1))

theorem closingLabelAt?_eq (label line : Text) : closingLabelAt? label line =
    some ((closingLabel? label line).map fun n => Text.byteSize (line.take n)) := by
  have blanked := List.takeWhile_append_dropWhile (p := Text.isBlank) (l := line)
  simp only [closingLabelAt?, closingLabel?]
  generalize line.takeWhile Text.isBlank = indent at blanked ⊢
  generalize line.dropWhile Text.isBlank = candidate at blanked ⊢
  subst blanked
  simp only [Text.from?_byteSize, Option.bind_eq_bind, Option.bind_some, List.drop_left]
  cases starts : label.isPrefixOf candidate with
  | false => rfl
  | true =>
    obtain ⟨rest, rfl⟩ := List.isPrefixOf_iff_prefix.mp starts
    have front :
        (indent ++ (label ++ rest)).take (indent.length + label.length) = indent ++ label := by
      rw [← List.append_assoc, ← List.length_append, List.take_left]
    simp only [Text.from?_byteSize, List.drop_left, Option.bind_some]
    cases rest.head?.any isWordChar with
    | true => rfl
    | false => simp [front]

/-- After a line that does not close the heredoc, the scanner goes on with the next line. -/
theorem closing?_skip (inside : '\n' ∉ x) : closing? label (x ++ '\n' :: rest) false n =
    closing? label rest true (n + (x.length + 1)) := by
  induction x generalizing n with
  | nil => rfl
  | cons c x ih =>
    have other : (c == '\n') = false := by
      rw [beq_eq_false_iff_ne]
      rintro rfl
      exact inside List.mem_cons_self
    rw [List.cons_append, closing?, other]
    simp only [Bool.false_eq_true, if_false]
    rw [ih fun member => inside (List.mem_cons_of_mem _ member), List.length_cons]
    congr 1
    omega

theorem closing?_fresh (missing : closingLabel? label t = none) :
    closing? label t true n = closing? label t false n := by
  cases t with
  | nil => rfl
  | cons c t =>
    rw [closing?, closing?, missing]
    rfl

theorem closing?_some (starts : startsWord label = true) {k : Nat}
    (closes : closingLabel? label t = some k) : closing? label t true n = some (n + k) := by
  cases t with
  | nil =>
    obtain ⟨indent, rest, empty, -⟩ := (closingLabel?_eq_some starts).mp closes
    obtain ⟨-, rfl, -⟩ : indent = [] ∧ label = [] ∧ rest = [] := by simpa [eq_comm] using empty
    cases starts
  | cons c t =>
    rw [closing?, closes]
    rfl

theorem closing?_none (starts : startsWord label = true) (single : t.hasLineFeed = false) :
    closing? label t false n = none := by
  rw [Option.eq_none_iff_forall_ne_some]
  intro k found
  have inside : '\n' ∉ t := by simpa [Text.hasLineFeed] using single
  have bounds := closing?_bounds found
  rw [← List.append_nil t] at found
  have late := closing?_of_no_lineFeed starts inside found
  omega

theorem closingAt?_eq (starts : startsWord label = true) (above rest : Text) {fuel : Nat}
    (enough : rest.length < fuel) :
    closingAt? label (above ++ rest) fuel (Text.byteSize above) =
      some ((closing? label rest true above.length).map fun k =>
        Text.byteSize ((above ++ rest).take k)) := by
  induction fuel generalizing above rest with
  | zero => omega
  | succ fuel ih =>
    simp only [closingAt?, Text.from?_byteSize, Option.bind_eq_bind, Option.bind_some,
      closingLabelAt?_eq]
    cases closes : closingLabel? label rest with
    | some k =>
      rw [closing?_some starts closes, Option.map_some, Option.map_some, List.take_length_add_append,
        Text.byteSize_append]
      rfl
    | none =>
      rw [closing?_fresh closes]
      cases feed : Text.hasLineFeed rest with
      | false =>
        rw [closing?_none starts feed]
        rfl
      | true =>
        obtain ⟨more, split⟩ := exists_line feed
        have inside : '\n' ∉ rest.takeWhile (· != '\n') := fun member => by
          simpa using List.mem_takeWhile_imp member
        generalize rest.takeWhile (· != '\n') = passed at split inside ⊢
        subst split
        have next := ih (above ++ (passed ++ ['\n'])) more (by simp at enough; omega)
        have whole : above ++ (passed ++ ['\n']) ++ more = above ++ (passed ++ '\n' :: more) := by simp
        have size : Text.byteSize (above ++ (passed ++ ['\n'])) =
            Text.byteSize above + (Text.byteSize passed + 1) := by
          rw [Text.byteSize_append, Text.byteSize_append]
          rfl
        have length : (above ++ (passed ++ ['\n'])).length = above.length + (passed.length + 1) := by
          simp
        rw [closing?_skip inside, ← length, ← size, ← whole, ← next]
        rfl

/-! ### The whole scan -/

/-- The kind and the size of the lexeme, or why there is none. The outer option is for the slices. -/
def cutAt (limits : Limits) (line : Nat) (t : Text) : Option Cut := do
  match ← headerAt? t with
  | none => return .ok (.operator, 2)
  | some (label, body) =>
    match ← closingAt? label t (t.length + 1) body with
    | none => return .error (.openString line)
    | some size =>
      if size > limits.stringBytes then return .error (.stringLimit size limits.stringBytes)
      return .ok (.stringLiteral, size)

theorem cutAt_eq (opens : "<<<".toList <+: t) : cutAt limits line t =
    some ((cutHeredoc limits line t).map fun (kind, n) => (kind, Text.byteSize (t.take n))) := by
  simp only [cutAt, headerAt?_eq opens, Option.bind_eq_bind, Option.bind_some, cutHeredoc]
  cases headed : header? t with
  | none =>
    obtain ⟨rest, rfl⟩ := opens
    rfl
  | some header =>
    obtain ⟨starts, -⟩ := label_of_header headed
    have fits := (header?_bounds headed).2
    have closing := closingAt?_eq starts (t.take header.length) (t.drop header.length)
      (show _ < t.length + 1 by rw [List.length_drop]; omega)
    rw [List.take_append_drop, List.length_take, Nat.min_eq_left fits] at closing
    simp only [Option.map_some, closing, Option.bind_some, length?]
    cases closing? header.label (t.drop header.length) true header.length with
    | none => rfl
    | some n =>
      simp only [Option.map_some, cutString]
      split
      · rfl
      · rfl

/-- The scanner answers as `Scanned` says, and the scan by offsets answers the same in bytes: each of
its slices is at an offset between two characters. -/
theorem scan_finds_first_label (limits : Limits) (line : Nat) (opens : "<<<".toList <+: t) :
    (∀ cut, cutHeredoc limits line t = cut ↔ Scanned limits line t cut) ∧
    cutAt limits line t =
      some ((cutHeredoc limits line t).map fun (kind, n) => (kind, Text.byteSize (t.take n))) :=
  ⟨fun _ => cutHeredoc_iff (List.isPrefixOf_iff_prefix.mpr opens), cutAt_eq opens⟩

/-- A quoted label of two bytes, a line that starts with a longer word, and an indented label. -/
theorem scan_finds_first_label_indented :
    "<<<".toList <+: "<<< 'É'\r\nÉa\n\tÉ;".toList ∧
    Scanned .development 1 "<<< 'É'\r\nÉa\n\tÉ;".toList (.ok (.stringLiteral, 14)) ∧
    cutAt .development 1 "<<< 'É'\r\nÉa\n\tÉ;".toList = some (.ok (.stringLiteral, 17)) := by
  have opens : "<<<".toList <+: "<<< 'É'\r\nÉa\n\tÉ;".toList := ⟨_, rfl⟩
  have found : cutHeredoc .development 1 "<<< 'É'\r\nÉa\n\tÉ;".toList = .ok (.stringLiteral, 14) := by
    decide
  obtain ⟨answers, offsets⟩ := scan_finds_first_label .development 1 opens
  rw [found] at offsets
  exact ⟨opens, (answers _).mp found, offsets⟩

end Lexer.Heredoc

end Restyle
