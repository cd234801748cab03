import Mathlib.Algebra.GroupWithZero.Nat
import Restyle.Lexer.Analyzer
import Restyle.Proofs.Lexer.Failures

/-!
# What the metrics say

`Describes` gives the metrics of a list of lexemes without counting along the list. One lexeme more
keeps it true (`Describes.record`), so it holds of every scan, however far it came.
-/

namespace Restyle

namespace Lexeme

def isSpace (l : Lexeme) : Bool := l.hint == .whitespace

def isComment (l : Lexeme) : Bool := l.hint == .comment || l.hint == .docComment

def isString (l : Lexeme) : Bool := l.hint == .stringLiteral

def longest (sort : Lexeme → Bool) (lexemes : List Lexeme) : Nat :=
  ((lexemes.filter sort).map fun l => Text.byteSize l.text).max?.getD 0

theorem longest_concat (sort : Lexeme → Bool) (lexemes : List Lexeme) (l : Lexeme) :
    longest sort (lexemes ++ [l]) =
      if sort l then max (longest sort lexemes) (Text.byteSize l.text) else longest sort lexemes := by
  have running : ∀ sizes : List Nat, sizes.max?.getD 0 = sizes.foldl max 0 := by
    intro sizes
    rw [List.foldl_max, Nat.zero_max]
  simp only [longest, running, List.filter_append]
  cases fits : sort l <;> simp [fits]

end Lexeme

def MetricsOptions.counts (options : MetricsOptions) (l : Lexeme) : Bool :=
  options.countWhitespace || !l.isSpace

namespace Metrics
open Lexeme
variable {options : MetricsOptions} {m : Metrics} {ls : List Lexeme} {kind k : TokenKind}
  {counts : List (TokenKind × Nat)}

structure Describes (options : MetricsOptions) (lexemes : List Lexeme) (m : Metrics) : Prop where
  spaces : m.spaces = lexemes.countP isSpace
  comments : m.comments = lexemes.countP isComment
  longestComment : m.longestComment = longest isComment lexemes
  longestString : m.longestString = longest isString lexemes
  counted : m.counted = lexemes.countP options.counts
  /-- Each kind has one count, and it has one only if a lexeme of that kind counts as a token. -/
  kinds : (m.byKind.map Prod.fst).Nodup
  byKind : options.detailed = true → ∀ kind n, m.byKind.lookup kind = some n ↔
    0 < n ∧ n = lexemes.countP fun l => options.counts l && l.hint == kind
  total : options.detailed = true → (m.byKind.map Prod.snd).sum = m.counted
  plain : options.detailed = false → m.byKind = []

/-! ### Counts by kind -/

theorem lookup_countKind (k kind : TokenKind) (counts : List (TokenKind × Nat)) :
    (countKind kind counts).lookup k =
      if k = kind then some ((counts.lookup k).getD 0 + 1) else counts.lookup k := by
  induction counts with
  | nil =>
    by_cases same : k = kind
    · simp [countKind, same]
    · simp [countKind, List.lookup_cons, beq_false_of_ne same, same]
  | cons entry rest ih =>
    obtain ⟨other, n⟩ := entry
    rw [countKind]
    by_cases here : other = kind
    · rw [if_pos here, here]
      by_cases same : k = kind
      · simp [same]
      · simp [List.lookup_cons, beq_false_of_ne same, same]
    · rw [if_neg here, List.lookup_cons, List.lookup_cons, ih]
      by_cases same : k = other
      · simp [same, here]
      · rw [beq_false_of_ne same]

theorem sum_countKind (kind : TokenKind) (counts : List (TokenKind × Nat)) :
    ((countKind kind counts).map Prod.snd).sum = (counts.map Prod.snd).sum + 1 := by
  induction counts with
  | nil => rfl
  | cons entry rest ih =>
    obtain ⟨other, n⟩ := entry
    rw [countKind]
    split
    · simp only [List.map_cons, List.sum_cons]
      omega
    · simp only [List.map_cons, List.sum_cons, ih]
      omega

theorem mem_kinds_countKind : k ∈ (countKind kind counts).map Prod.fst ↔
    k = kind ∨ k ∈ counts.map Prod.fst := by
  induction counts with
  | nil => simp [countKind]
  | cons entry rest ih =>
    obtain ⟨other, n⟩ := entry
    rw [countKind]
    split
    · rename_i same
      simp [same]
    · simp only [List.map_cons, List.mem_cons, ih]
      tauto

theorem nodup_countKind (nodup : (counts.map Prod.fst).Nodup) :
    ((countKind kind counts).map Prod.fst).Nodup := by
  induction counts with
  | nil => simp [countKind]
  | cons entry rest ih =>
    obtain ⟨other, n⟩ := entry
    obtain ⟨absent, nodup⟩ := List.nodup_cons.mp nodup
    rw [countKind]
    split
    · exact List.nodup_cons.mpr ⟨absent, nodup⟩
    · rename_i different
      refine List.nodup_cons.mpr ⟨?_, ih nodup⟩
      rw [mem_kinds_countKind]
      exact not_or.mpr ⟨different, absent⟩

/-! ### One lexeme more -/

theorem record_eq (options : MetricsOptions) (m : Metrics) (l : Lexeme) : m.record options l =
    { counted := m.counted + if options.counts l then 1 else 0
      spaces := m.spaces + if l.isSpace then 1 else 0
      comments := m.comments + if l.isComment then 1 else 0
      longestString := if l.isString then max m.longestString (Text.byteSize l.text)
        else m.longestString
      longestComment := if l.isComment then max m.longestComment (Text.byteSize l.text)
        else m.longestComment
      byKind := if options.detailed && options.counts l then countKind l.hint m.byKind
        else m.byKind } := by
  obtain ⟨hint, text⟩ := l
  obtain ⟨detailed, spaces⟩ := options
  cases hint with
  | whitespace =>
    cases spaces <;>
      simp [record, count, MetricsOptions.counts, isSpace, isComment, isString]
  | _ => simp [record, count, MetricsOptions.counts, isSpace, isComment, isString]

theorem describes_nil : Describes options [] {} where
  spaces := rfl
  comments := rfl
  longestComment := rfl
  longestString := rfl
  counted := rfl
  kinds := .nil
  byKind _ kind n := by
    rw [List.lookup_nil, List.countP_nil]
    simp only [reduceCtorEq, false_iff]
    omega
  total _ := rfl
  plain _ := rfl

theorem Describes.record (describes : Describes options ls m) (l : Lexeme) :
    Describes options (ls ++ [l]) (m.record options l) := by
  have counting : ∀ p : Lexeme → Bool,
      (ls ++ [l]).countP p = ls.countP p + if p l then 1 else 0 := by
    intro p
    rw [List.countP_append, List.countP_singleton]
  rw [record_eq]
  constructor
  case spaces => rw [counting, describes.spaces]
  case comments => rw [counting, describes.comments]
  case longestComment => rw [longest_concat, describes.longestComment]
  case longestString => rw [longest_concat, describes.longestString]
  case counted => rw [counting, describes.counted]
  case kinds =>
    dsimp only
    split
    · exact nodup_countKind describes.kinds
    · exact describes.kinds
  case byKind =>
    intro detailed kind n
    have before := describes.byKind detailed
    rw [counting]
    cases counted : options.counts l with
    | false => simpa [detailed] using before kind n
    | true =>
      simp only [detailed, Bool.and_self, if_true, lookup_countKind, Bool.true_and, beq_iff_eq]
      by_cases same : kind = l.hint
      · rw [if_pos same, if_pos same.symm, Option.some.injEq]
        -- The count so far is what is looked up, or zero if there is none yet.
        have old : (m.byKind.lookup kind).getD 0 =
            ls.countP fun l => options.counts l && l.hint == kind := by
          cases found : m.byKind.lookup kind with
          | some n => exact ((before kind n).mp found).2
          | none =>
            rw [Option.getD_none]
            by_contra some
            have there := (before kind _).mpr ⟨Nat.pos_of_ne_zero (Ne.symm some), rfl⟩
            rw [found] at there
            cases there
        rw [old]
        omega
      · rw [if_neg same, if_neg (Ne.symm same), Nat.add_zero]
        exact before kind n
  case total =>
    intro detailed
    have before := describes.total detailed
    cases counted : options.counts l with
    | false => simpa [detailed] using before
    | true =>
      simp only [detailed, Bool.and_self, if_true, sum_countKind]
      omega
  case plain =>
    intro off
    simpa [off] using describes.plain off

theorem describes_ofLexemes (options : MetricsOptions) (lexemes : Array Lexeme) :
    Describes options lexemes.toList (ofLexemes options lexemes) := by
  rw [ofLexemes, ← Array.foldl_toList]
  induction lexemes.toList using List.reverseRecOn with
  | nil => exact describes_nil
  | append_singleton ls l ih =>
    rw [List.foldl_append]
    exact ih.record l

end Metrics

namespace Analyzer
open Metrics
variable {limits : Limits} {a : Analyzer}

theorem foldl_record (a : Analyzer) (ls : List Lexeme) :
    ls.foldl record a = { a with metrics := ls.foldl (Metrics.record a.options) a.metrics } := by
  induction ls generalizing a with
  | nil => rfl
  | cons l ls ih => rw [List.foldl_cons, ih]; rfl

/-- What an analyzer was used for before plays no part. -/
theorem lex_eq (limits : Limits) (a : Analyzer) (source : Text) :
    (a.lex limits source).2 =
      { options := a.options
        metrics := .ofLexemes a.options (Scan.ofSource limits source).lexemes } := by
  rw [lex, ofLexemes, ← Array.foldl_toList, ← Array.foldl_toList, foldl_record]

theorem options_lexAll (limits : Limits) (a : Analyzer) (history : List Text) :
    (a.lexAll limits history).options = a.options := by
  induction history generalizing a with
  | nil => rfl
  | cons source history ih =>
    show ((a.lex limits source).2.lexAll limits history).options = a.options
    rw [ih, lex_eq]

/-- After any history, the metrics are those of the lexemes of the last source. If that source cannot
be lexed, they are those of the lexemes before the place where lexing got stuck. -/
theorem metrics_of_last_source (limits : Limits) (a : Analyzer) (history : List Text) (source : Text) :
    ((a.lexAll limits history).lex limits source).2.metrics =
      .ofLexemes a.options (Scan.ofSource limits source).lexemes ∧
    (∀ lexemes, ((a.lexAll limits history).lex limits source).1.result = .ok lexemes →
      Describes a.options lexemes ((a.lexAll limits history).lex limits source).2.metrics) ∧
    ∀ e, ((a.lexAll limits history).lex limits source).1.result = .error e →
      ∃ s rest, Scan.Reaches limits {} source s rest ∧ rest ≠ [] ∧ s.Stuck limits rest e ∧
        Describes a.options s.lexemes.toList ((a.lexAll limits history).lex limits source).2.metrics := by
  have same : ((a.lexAll limits history).lex limits source).2.metrics =
      .ofLexemes a.options (Scan.ofSource limits source).lexemes := by
    rw [lex_eq, options_lexAll]
  rw [same]
  refine ⟨rfl, fun lexemes lexed => ?_, fun e failed => ?_⟩
  · obtain ⟨-, rfl⟩ := Scan.result_ok.mp lexed
    exact describes_ofLexemes _ _
  · obtain ⟨s, rest, reaches, some, stuck, accepted⟩ :=
      Scan.reaches_of_run (Nat.le_refl _) rfl (Scan.result_error.mp failed)
    refine ⟨s, rest, reaches, some, stuck, ?_⟩
    rw [← accepted]
    exact describes_ofLexemes _ _

/-- A comment with a character of two bytes and a string that is never closed, after two other
sources. -/
theorem metrics_of_last_source_unclosed :
    let a : Analyzer := { options := { detailed := true, countWhitespace := false } }
    let history := ["<?php 'abc' # d".toList, "<?php /* e".toList]
    let source := "<?php /*é*/ 'b".toList
    ((a.lexAll .development history).lex .development source).1.result = .error (.openString 1) ∧
    ∃ s rest, Scan.Reaches .development {} source s rest ∧ rest ≠ [] ∧
      s.Stuck .development rest (.openString 1) ∧
      Describes a.options s.lexemes.toList
        { counted := 2, spaces := 2, comments := 1, longestComment := 6,
          byKind := [(.openTag, 1), (.comment, 1)] } := by
  intro a history source
  obtain ⟨same, -, partly⟩ := metrics_of_last_source .development a history source
  have failed := Scan.result_error.mpr (show (Scan.ofSource .development source).failure =
    some (.openString 1) by decide)
  obtain ⟨s, rest, reaches, some, stuck, describes⟩ := partly _ failed
  have metrics : Metrics.ofLexemes a.options (Scan.ofSource .development source).lexemes =
      { counted := 2, spaces := 2, comments := 1, longestComment := 6,
        byKind := [(.openTag, 1), (.comment, 1)] } := by decide
  rw [same, metrics] at describes
  exact ⟨failed, s, rest, reaches, some, stuck, describes⟩

end Analyzer

end Restyle
