import Restyle.Proofs.Chain.History
import Restyle.Proofs.Lexer.Cuts

/-!
# Nothing of a source is lost

`Lexes` says how lexing goes on lexeme by lexeme, and `lexes_of_run` that the bound on its steps
plays no part in it. Hence the lexemes of a source make up the source, and so does the chain of
them (`lossless_front_end`).
-/

namespace Restyle
open Outcome

namespace Scan
variable {limits : Limits} {s s' : Scan} {t : Text} {kind : TokenKind} {n fuel : Nat}

/-- Lexing takes all of a text, and leads from the scan `s` to the scan `s'`. -/
inductive Lexes (limits : Limits) : Scan → Text → Scan → Prop where
  | done {s : Scan} : Lexes limits s [] s
  | step {s s' : Scan} {kind : TokenKind} {text rest : Text} : text ≠ [] →
      s.cut limits (text ++ rest) = .ok (kind, text.length) → s.lexemes.size < limits.tokens →
      Lexes limits (s.accept kind text) rest s' → Lexes limits s (text ++ rest) s'

/-! ### One lexeme -/

theorem run_nil : run limits fuel [] s = s := by cases fuel <;> rfl

theorem run_of_cut_error {e : LexError} (nonempty : t ≠ []) (failed : s.cut limits t = .error e) :
    run limits (fuel + 1) t s = { s with failure := some e } := by
  cases t with
  | nil => exact (nonempty rfl).elim
  | cons c rest => rw [run, failed]

theorem run_of_cut_ok (nonempty : t ≠ []) (ok : s.cut limits t = .ok (kind, n)) :
    run limits (fuel + 1) t s =
      if limits.tokens ≤ s.lexemes.size then
        { s with failure := some (.tokenLimit (s.lexemes.size + 1) limits.tokens) }
      else run limits fuel (t.drop n) (s.accept kind (t.take n)) := by
  cases t with
  | nil => exact (nonempty rfl).elim
  | cons c rest =>
    rw [run, ok]
    simp only [List.splitAt_eq]

theorem exists_front (nonempty : t ≠ []) (ok : s.cut limits t = .ok (kind, n)) :
    ∃ text rest, t = text ++ rest ∧ text ≠ [] ∧ n = text.length := by
  obtain ⟨positive, fits⟩ := cut_bounds nonempty ok
  have length : (t.take n).length = n := by rw [List.length_take]; omega
  exact ⟨t.take n, t.drop n, (List.take_append_drop n t).symm, List.length_pos_iff.mp (by omega),
    length.symm⟩

theorem length_drop_lt (nonempty : t ≠ []) (ok : s.cut limits t = .ok (kind, n)) :
    (t.drop n).length < t.length := by
  obtain ⟨positive, fits⟩ := cut_bounds nonempty ok
  rw [List.length_drop]
  omega

/-! ### The whole text -/

/-- As many steps as there are characters are enough: more of them change nothing. -/
theorem run_eq_of_enough {more : Nat} (enough : t.length ≤ fuel) (enough' : t.length ≤ more) :
    run limits fuel t s = run limits more t s := by
  induction fuel generalizing t s more with
  | zero =>
    obtain rfl : t = [] := List.eq_nil_of_length_eq_zero (by omega)
    rw [run_nil, run_nil]
  | succ fuel ih =>
    by_cases empty : t = []
    · rw [empty, run_nil, run_nil]
    have positive := List.length_pos_iff.mpr empty
    obtain ⟨more, rfl⟩ : ∃ k, more = k + 1 := ⟨more - 1, by omega⟩
    cases cut : s.cut limits t with
    | error e => rw [run_of_cut_error empty cut, run_of_cut_error empty cut]
    | ok piece =>
      obtain ⟨kind, n⟩ := piece
      have shorter := length_drop_lt empty cut
      have same : run limits fuel (t.drop n) (s.accept kind (t.take n)) =
          run limits more (t.drop n) (s.accept kind (t.take n)) := ih (by omega) (by omega)
      rw [run_of_cut_ok empty cut, run_of_cut_ok empty cut, same]

theorem lexes_of_run (enough : t.length ≤ fuel) (whole : (run limits fuel t s).failure = none) :
    Lexes limits s t (run limits fuel t s) := by
  induction fuel generalizing t s with
  | zero =>
    obtain rfl : t = [] := List.eq_nil_of_length_eq_zero (by omega)
    rw [run_nil]
    exact .done
  | succ fuel ih =>
    by_cases empty : t = []
    · rw [empty, run_nil]
      exact .done
    cases cut : s.cut limits t with
    | error e => simp [run_of_cut_error empty cut] at whole
    | ok piece =>
      obtain ⟨kind, n⟩ := piece
      have shorter := length_drop_lt empty cut
      obtain ⟨text, rest, rfl, full, rfl⟩ := exists_front empty cut
      rw [List.drop_left] at shorter
      rw [run_of_cut_ok empty cut, List.drop_left, List.take_left] at whole ⊢
      split at whole
      · simp at whole
      · rename_i room
        rw [if_neg room]
        exact .step full cut (by omega) (ih (by omega) whole)

/-! ### What lexing a text keeps -/

/-- The lexemes of a text are not empty and make up the text, and they are not too many. -/
theorem Lexes.pieces (lexes : Lexes limits s t s') :
    ∃ pieces, s'.lexemes.toList = s.lexemes.toList ++ pieces ∧ (∀ l ∈ pieces, l.text ≠ []) ∧
      pieces.flatMap (·.text) = t ∧ (s.lexemes.size ≤ limits.tokens →
        s'.lexemes.size ≤ limits.tokens) := by
  induction lexes with
  | done => exact ⟨[], by simp, by simp, rfl, id⟩
  | @step s s' kind text rest nonempty cut room _ ih =>
    obtain ⟨pieces, all, full, same, bound⟩ := ih
    refine ⟨⟨kind, text⟩ :: pieces, ?_, ?_, ?_, ?_⟩
    · simp [all, accept]
    · simpa using ⟨nonempty, full⟩
    · simp [same]
    · intro _
      refine bound ?_
      rw [accept, Array.size_push]
      exact room

/-- What holds of each lexeme cut from the front of a text holds of all of them. -/
theorem Lexes.each {P : Lexeme → Text → Prop} (lexes : Lexes limits s t s')
    (holds : ∀ (s : Scan) (kind : TokenKind) (text rest : Text), text ≠ [] →
      s.cut limits (text ++ rest) = .ok (kind, text.length) → P ⟨kind, text⟩ rest) :
    ∃ pieces, s'.lexemes.toList = s.lexemes.toList ++ pieces ∧ pieces.flatMap (·.text) = t ∧
      ∀ before l after, pieces = before ++ l :: after → P l (after.flatMap (·.text)) := by
  induction lexes with
  | done => exact ⟨[], by simp, rfl, by simp⟩
  | @step s s' kind text rest nonempty cut _ _ ih =>
    obtain ⟨pieces, all, same, each⟩ := ih
    refine ⟨⟨kind, text⟩ :: pieces, by simp [all, accept], by simp [same], ?_⟩
    intro before l after split
    cases before with
    | nil =>
      obtain ⟨rfl, rfl⟩ := List.cons.inj split
      rw [same]
      exact holds s kind text rest nonempty cut
    | cons m before => exact each before l after (List.cons.inj split).2

theorem result_ok {lexemes : List Lexeme} :
    s.result = .ok lexemes ↔ s.failure = none ∧ s.lexemes.toList = lexemes := by
  unfold result
  cases s.failure <;> simp

theorem ofSource_pieces {source : Text} {lexemes : List Lexeme}
    (ok : (ofSource limits source).result = .ok lexemes) :
    (∀ l ∈ lexemes, l.text ≠ []) ∧ lexemes.flatMap (·.text) = source ∧
      lexemes.length ≤ limits.tokens := by
  obtain ⟨whole, rfl⟩ := result_ok.mp ok
  have lexes : Lexes limits {} source (ofSource limits source) :=
    lexes_of_run (Nat.le_refl _) whole
  obtain ⟨pieces, all, full, same, bound⟩ := lexes.pieces
  rw [List.nil_append] at all
  refine ⟨by rwa [all], by rwa [all], ?_⟩
  rw [Array.length_toList]
  exact bound (Nat.zero_le _)

theorem ofSource_each {P : Lexeme → Text → Prop} {source : Text} {lexemes : List Lexeme}
    (ok : (ofSource limits source).result = .ok lexemes)
    (holds : ∀ (s : Scan) (kind : TokenKind) (text rest : Text), text ≠ [] →
      s.cut limits (text ++ rest) = .ok (kind, text.length) → P ⟨kind, text⟩ rest) :
    ∀ before l after, lexemes = before ++ l :: after → P l (after.flatMap (·.text)) := by
  obtain ⟨whole, rfl⟩ := result_ok.mp ok
  have lexes : Lexes limits {} source (ofSource limits source) :=
    lexes_of_run (Nat.le_refl _) whole
  obtain ⟨pieces, all, -, each⟩ := lexes.each holds
  rw [List.nil_append] at all
  rwa [all]

end Scan

theorem Chain.ofLexemes_spec {capacity : Nat} {lexemes : List Lexeme} (fits : capacity ≤ 2 ^ 32)
    (room : lexemes.length ≤ capacity) :
    ∃ c last, ofLexemes capacity lexemes = .ok c ∧
      Threaded capacity c last (lexemes.map Lexeme.toToken) := by
  have length : (lexemes.map Lexeme.toToken).length ≤ capacity := by simpa using room
  obtain ⟨c, ok⟩ := ofTokens_isOk length
  obtain ⟨last, threaded⟩ := ofTokens_threaded fits ok
  exact ⟨c, last, ok, threaded⟩

namespace Chain

def ofSource? (limits : Limits) (source : Text) : Option Chain :=
  match (Scan.ofSource limits source).result with
  | .ok lexemes => (ofLexemes limits.nodes lexemes).toOption
  | .error _ => none

variable {profile : String} {limits : Limits} {source : Text} {c : Chain}

theorem exists_lexemes (read : ofSource? limits source = some c) :
    ∃ lexemes, (Scan.ofSource limits source).result = .ok lexemes ∧
      ofLexemes limits.nodes lexemes = .ok c := by
  unfold ofSource? at read
  split at read
  · rename_i lexemes lexed
    exact ⟨lexemes, lexed, Outcome.toOption_some.mp read⟩
  · simp at read

section OfSource
variable (valid : limits.validate profile = .ok ()) (read : ofSource? limits source = some c)
include valid read

theorem exists_threaded : ∃ lexemes last, (Scan.ofSource limits source).result = .ok lexemes ∧
    limits.nodes < 2 ^ 32 ∧ lexemes.length ≤ limits.nodes ∧
    Threaded limits.nodes c last (lexemes.map Lexeme.toToken) := by
  obtain ⟨narrow, tokens⟩ := Limits.nodes_lt_of_validate valid
  obtain ⟨lexemes, lexed, built⟩ := exists_lexemes read
  obtain ⟨-, -, bound⟩ := Scan.ofSource_pieces lexed
  obtain ⟨last, threaded⟩ := ofTokens_threaded (Nat.le_of_lt narrow) built
  exact ⟨lexemes, last, lexed, narrow, by omega, threaded⟩

theorem render_of_source : c.render = source := by
  obtain ⟨lexemes, last, lexed, narrow, bound, threaded⟩ := exists_threaded valid read
  rw [threaded.render (by rw [List.length_map]; omega), List.flatMap_map]
  exact (Scan.ofSource_pieces lexed).2.1

end OfSource

end Chain

/-- Lexing ends, its lexemes are the source in pieces, and the chain of them renders the source. -/
theorem lossless_front_end {profile : String} {limits : Limits}
    (valid : limits.validate profile = .ok ()) (source : Text) :
    (∀ fuel ≥ source.length, Scan.run limits fuel source {} = Scan.ofSource limits source) ∧
    ∀ lexemes, (Scan.ofSource limits source).result = .ok lexemes →
      (∀ l ∈ lexemes, l.text ≠ []) ∧ lexemes.flatMap (·.text) = source ∧
      ∃ c, Chain.ofLexemes limits.nodes lexemes = .ok c ∧ c.render = source ∧ c.edits = 0 ∧
        c.order.map NodeId.index = List.range lexemes.length := by
  obtain ⟨narrow, tokens⟩ := Limits.nodes_lt_of_validate valid
  refine ⟨fun fuel enough => Scan.run_eq_of_enough enough (Nat.le_refl _), ?_⟩
  intro lexemes ok
  obtain ⟨full, same, bound⟩ := Scan.ofSource_pieces ok
  obtain ⟨c, last, built, threaded⟩ :=
    Chain.ofLexemes_spec (Nat.le_of_lt narrow) (Nat.le_trans bound tokens)
  refine ⟨full, same, c, built, ?_, threaded.edits, ?_⟩
  · rw [threaded.render (by simp only [List.length_map]; omega), List.flatMap_map]
    exact same
  · rw [threaded.order, List.length_map, NodeId.map_index_firsts (by omega)]

/-- A source with a heredoc, in which a backslash and a quote stand, and with text after the code. -/
theorem lossless_front_end_heredoc :
    Limits.development.validate "development" = .ok () ∧
    ∃ lexemes c, (Scan.ofSource .development
        "<?php $a = <<<X\n\\'é\nX; ?>\n".toList).result = .ok lexemes ∧
      Chain.ofLexemes Limits.development.nodes lexemes = .ok c ∧
      c.render = "<?php $a = <<<X\n\\'é\nX; ?>\n".toList := by
  have valid : Limits.development.validate "development" = .ok () := by decide
  have ok := Scan.result_ok.mpr ⟨show (Scan.ofSource .development
    "<?php $a = <<<X\n\\'é\nX; ?>\n".toList).failure = none by decide, rfl⟩
  obtain ⟨-, -, c, built, render, -⟩ := (lossless_front_end valid _).2 _ ok
  exact ⟨valid, _, c, ok, built, render⟩

end Restyle
