import Restyle.Proofs.Lexer.Legible

/-!
# Reading tokens back

The tokens of a source are legible (`Lexes.legible`). Legible tokens are read back from their texts,
up to whitespace, if and only if no whitespace has a form feed, which the lexer does not take for
whitespace, and no heredoc starts at an operator `<<` (`rereads_iff`).
-/

namespace Restyle
open Lexer

namespace Token

variable {t : Token} {ts : List Token}

def visible (ts : List Token) : List Token := ts.filter fun t => !t.isWhitespace

theorem visible_of_blank (blank : t.isWhitespace = true) : visible (t :: ts) = visible ts :=
  List.filter_cons_of_neg (by simp [blank])

theorem visible_of_seen (seen : t.isWhitespace = false) : visible (t :: ts) = t :: visible ts :=
  List.filter_cons_of_pos (by simp [seen])

theorem visible_append {us : List Token} : visible (ts ++ us) = visible ts ++ visible us :=
  List.filter_append ..

/-- Whitespace tokens have only characters that the lexer takes for whitespace. -/
def Plain (ts : List Token) : Prop := ∀ t ∈ ts, t.isWhitespace = true → isSpaceText t.text = true

def NoFormFeed (ts : List Token) : Prop := ∀ t ∈ ts, t.isWhitespace = true → '\x0c' ∉ t.text

/-- No heredoc starts at an operator `<<`. -/
def NoHeredoc (ts : List Token) : Prop :=
  ∀ before after, ts = before ++ ⟨.operator, "<<".toList⟩ :: after →
    "<<<".toList.isPrefixOf (texts (⟨.operator, "<<".toList⟩ :: after)) = true →
    Heredoc.header? (texts (⟨.operator, "<<".toList⟩ :: after)) = none

end Token

namespace Scan
open Token (texts)
variable {limits : Limits} {s s' : Scan} {t : Token} {ts : List Token} {text rest : Text}
  {kind : TokenKind} {n line line' : Nat} {afterAccess : Bool} {x : Text}

def mode (s : Scan) : Mode := ⟨s.inCode, s.afterAccess⟩

/-! ### Tokens of a source -/

theorem cutCode_line : (cutCode limits line afterAccess x).toOption =
    (cutCode limits line' afterAccess x).toOption := by
  have quoted : ∀ c, (cutQuoted limits line c x).toOption = (cutQuoted limits line' c x).toOption := by
    intro c
    unfold cutQuoted
    split <;> rfl
  have comment : (cutBlockComment limits line x).toOption =
      (cutBlockComment limits line' x).toOption := by
    unfold cutBlockComment
    split <;> rfl
  have heredoc : (cutHeredoc limits line x).toOption = (cutHeredoc limits line' x).toOption := by
    unfold cutHeredoc
    split
    · rfl
    · split <;> rfl
  cases x with
  | nil => rfl
  | cons c rest =>
    simp only [cutCode, apply_ite Except.toOption]
    rw [quoted c, comment, heredoc]

theorem cut_ok : s.cut limits x = .ok (kind, n) ↔ s.mode.cut? limits x = some (kind, n) := by
  unfold cut Mode.cut?
  show _ ↔ (if s.inCode = true then _ else _) = _
  split
  · have line : (cutCode limits 0 s.mode.afterAccess x).toOption =
        (cutCode limits s.line s.afterAccess x).toOption := cutCode_line
    rw [line, Outcome.toOption_some]
  · simp

theorem isSpaceText_iff : Token.isSpaceText x = true ↔ x ≠ [] ∧ ∀ c ∈ x, Text.isSpace c = true := by
  simp [Token.isSpaceText]

theorem spaced_of_isSpaceText (space : Token.isSpaceText x = true) : Spaced x := by
  obtain ⟨nonempty, all⟩ := isSpaceText_iff.mp space
  obtain ⟨c, y, rfl⟩ := List.exists_cons_of_ne_nil nonempty
  exact ⟨by simpa using all c List.mem_cons_self, fun d member => by simp [all d member]⟩

theorem kind_ne_whitespace {c : Char} (cut : CodeCut limits afterAccess c x kind n)
    (first : Text.isSpace c = false) : kind ≠ .whitespace := by
  cases cut with
  | whitespace space =>
    rw [first] at space
    cases space
  | word =>
    simp only [cutWord]
    split <;> decide
  | blockComment => split <;> decide
  | _ => decide

/-- Whitespace is cut where it stands, and nowhere else. -/
theorem cutCode_whitespace (nonempty : text ≠ [])
    (ok : cutCode limits line afterAccess (text ++ rest) = .ok (kind, text.length)) :
    kind = .whitespace ↔ Token.isSpaceText text = true := by
  obtain ⟨c, y, rfl⟩ := List.exists_cons_of_ne_nil nonempty
  have cut := codeCut_of_cutCode ok
  cases first : Text.isSpace c with
  | true =>
    rw [List.cons_append, cutCode, if_pos first] at ok
    obtain ⟨rfl, length⟩ := Prod.mk.inj (Except.ok.inj ok)
    refine iff_of_true rfl (isSpaceText_iff.mpr ⟨nonempty, all_of_length length.symm⟩)
  | false =>
    refine iff_of_false (kind_ne_whitespace cut first) fun space => ?_
    rw [(isSpaceText_iff.mp space).2 c List.mem_cons_self] at first
    cases first

theorem mode_accept (is : s.mode.kindOf ⟨t.kind, text⟩ = kind) :
    s.mode.after ⟨t.kind, text⟩ = (s.accept kind text).mode := by
  rw [Mode.after, is]
  rfl

theorem kind_ne_of_cut (nonempty : text ≠ []) (space : Token.isSpaceText text = false)
    (ok : s.cut limits (text ++ rest) = .ok (kind, text.length)) : kind ≠ .whitespace := by
  have ok := cut_ok.mp ok
  cases code : s.mode.inCode with
  | true =>
    rw [Ne, cutCode_whitespace nonempty (cut?_code code ok), space]
    decide
  | false =>
    have kinds := cutInline_kind (x := text ++ rest)
    rw [cut?_outside code ok] at kinds
    rcases kinds with same | same
    · rw [show kind = .openTag from same]
      decide
    · rw [show kind = .inlineText from same]
      decide

/-- A lexeme that was cut can be read where it stands. -/
theorem reads_of_cut (nonempty : text ≠ [])
    (ok : s.cut limits (text ++ rest) = .ok (kind, text.length)) :
    Reads limits s.mode (.classify kind text) rest ∧
      s.mode.after (.classify kind text) = (s.accept kind text).mode ∧
      ((Token.classify kind text).isWhitespace = true → Token.isSpaceText text = true) := by
  have cut := cut_ok.mp ok
  cases space : Token.isSpaceText text with
  | true =>
    have token : Token.classify kind text = ⟨.whitespace, text⟩ := by simp [Token.classify, space]
    have spaced := spaced_of_isSpaceText space
    rw [token]
    cases code : s.mode.inCode with
    | true =>
      have blank := (cutCode_whitespace nonempty (cut?_code code cut)).mpr space
      refine ⟨.space rfl code spaced, mode_accept (t := ⟨.whitespace, text⟩) ?_, fun _ => rfl⟩
      simp [Mode.kindOf, code, blank]
    | false =>
      have cut := cut?_outside code cut
      have text' : kind = .inlineText := by
        have kinds := cutInline_kind (x := text ++ rest)
        rw [cut] at kinds
        refine kinds.resolve_left fun tag => ?_
        have tag : kind = .openTag := tag
        rw [tag] at cut
        obtain ⟨length, some⟩ := cutInline_tag.mp cut
        have none := spaced.openTagLength (r := rest) (List.length_pos_iff.mpr nonempty)
        rw [List.drop_zero, length] at none
        exact some none
      refine ⟨.outside rfl code spaced (text' ▸ cut), mode_accept (t := ⟨.whitespace, text⟩) ?_,
        fun _ => rfl⟩
      rw [text', Mode.kindOf, code]
      rfl
  | false =>
    have token : Token.classify kind text = ⟨kind, text⟩ := by simp [Token.classify, space]
    have seen : (⟨kind, text⟩ : Token).isWhitespace = false :=
      beq_eq_false_iff_ne.mpr (kind_ne_of_cut nonempty space ok)
    rw [token]
    refine ⟨?_, mode_accept (t := ⟨kind, text⟩) ?_, fun blank => ?_⟩
    · by_cases shift : (⟨kind, text⟩ : Token) = ⟨.operator, "<<".toList⟩
      · obtain ⟨rfl, rfl⟩ := Token.mk.inj shift
        cases code : s.mode.inCode with
        | true =>
          refine .shift rfl code fun equals => ?_
          obtain ⟨more, rfl⟩ := List.head?_eq_some_iff.mp equals
          have three : cutCode limits 0 s.mode.afterAccess ('<' :: '<' :: '=' :: more) =
            .ok (.operator, 3) := rfl
          have two := cut?_code code cut
          cases (Prod.mk.inj (Except.ok.inj (three.symm.trans two))).2
        | false =>
          have kinds := cutInline_kind (x := "<<".toList ++ rest)
          rw [cut?_outside code cut] at kinds
          rcases kinds with same | same <;> cases same
      · exact .lexeme seen shift nonempty space cut
    · simp [Mode.kindOf, seen]
    · rw [seen] at blank
      cases blank

theorem Lexes.legible (lexes : Lexes limits s x s') :
    ∃ pieces : List Lexeme, s'.lexemes.toList = s.lexemes.toList ++ pieces ∧
      texts (pieces.map Lexeme.toToken) = x ∧
      Legible limits s.mode (pieces.map Lexeme.toToken) [] ∧
      Token.Plain (pieces.map Lexeme.toToken) := by
  induction lexes with
  | done => exact ⟨[], by simp, rfl, trivial, by simp [Token.Plain]⟩
  | @step s s' kind text rest nonempty cut room _ ih =>
    obtain ⟨pieces, all, same, legible, plain⟩ := ih
    obtain ⟨reads, after, space⟩ := reads_of_cut nonempty cut
    refine ⟨⟨kind, text⟩ :: pieces, by simp [all, accept], ?_, ⟨?_, ?_⟩, ?_⟩
    · rw [List.map_cons, Token.texts_cons, same]
      rfl
    · rw [same, List.append_nil]
      exact reads
    · rw [show Lexeme.toToken ⟨kind, text⟩ = .classify kind text from rfl, after]
      exact legible
    · intro u member
      rcases List.mem_cons.mp member with rfl | later
      · exact space
      · exact plain u later

end Scan

namespace Lexer
open Token (texts visible visible_of_blank visible_of_seen Plain NoFormFeed NoHeredoc)
variable {limits : Limits} {m : Mode} {t : Token} {ts V : List Token} {text rest x p : Text}
  {kind : TokenKind} {n : Nat} {ls : List Lexeme}

/-! ### Lexing without a limit on tokens -/

def Mode.accept (m : Mode) (kind : TokenKind) (text : Text) : Mode :=
  ⟨inCodeAfter m.inCode kind text, accessAfter m.afterAccess kind text⟩

inductive Cuts (limits : Limits) : Mode → Text → List Lexeme → Prop
  | done {m : Mode} : Cuts limits m [] []
  | step {m : Mode} {kind : TokenKind} {text rest : Text} {ls : List Lexeme} : text ≠ [] →
      m.cut? limits (text ++ rest) = some (kind, text.length) →
      Cuts limits (m.accept kind text) rest ls → Cuts limits m (text ++ rest) (⟨kind, text⟩ :: ls)

theorem Cuts.of_lexes {s s' : Scan} (lexes : Scan.Lexes limits s x s') :
    ∃ ls, Cuts limits s.mode x ls ∧ s'.lexemes.toList = s.lexemes.toList ++ ls := by
  induction lexes with
  | done => exact ⟨[], .done, by simp⟩
  | @step s s' kind text rest nonempty cut room _ ih =>
    obtain ⟨ls, cuts, all⟩ := ih
    exact ⟨⟨kind, text⟩ :: ls, .step nonempty (Scan.cut_ok.mp cut) cuts, by simp [all, Scan.accept]⟩

theorem Cuts.run {s : Scan} {fuel : Nat} (cuts : Cuts limits s.mode x ls) (enough : x.length ≤ fuel)
    (fine : s.failure = none) :
    (Scan.run limits fuel x s).result = .ok (s.lexemes.toList ++ ls) ∨
      ∃ count max, (Scan.run limits fuel x s).result = .error (.tokenLimit count max) := by
  generalize same : s.mode = m at cuts
  induction cuts generalizing s fuel with
  | done =>
    refine .inl ?_
    rw [Scan.run_nil, List.append_nil]
    exact Scan.result_ok.mpr ⟨fine, rfl⟩
  | @step m kind text rest ls nonempty cut _ ih =>
    have some := List.length_pos_iff.mpr nonempty
    rw [List.length_append] at enough
    obtain ⟨fuel, rfl⟩ : ∃ k, fuel = k + 1 := ⟨fuel - 1, by omega⟩
    have cut : s.cut limits (text ++ rest) = .ok (kind, text.length) :=
      Scan.cut_ok.mpr (by rw [same]; exact cut)
    rw [Scan.run_of_cut_ok (by simp [nonempty]) cut]
    split
    · exact .inr ⟨_, _, rfl⟩
    · rw [List.take_left, List.drop_left]
      have room : rest.length ≤ fuel := by omega
      have next := ih (s := s.accept kind text) room fine (by rw [← same]; rfl)
      simpa [Scan.accept] using next

theorem cuts_step (nonempty : text ≠ [])
    (cut : m.cut? limits (text ++ rest) = some (kind, text.length)) :
    Cuts limits m (text ++ rest) ls ↔
      ∃ ls', ls = ⟨kind, text⟩ :: ls' ∧ Cuts limits (m.accept kind text) rest ls' := by
  constructor
  · intro cuts
    generalize whole : text ++ rest = x at cuts
    cases cuts with
    | done => simp [nonempty] at whole
    | @step _ kind' text' rest' ls some cut' next =>
      rw [whole] at cut
      obtain ⟨rfl, length⟩ := Prod.mk.inj (Option.some.inj (cut.symm.trans cut'))
      obtain ⟨rfl, rfl⟩ := List.append_inj whole length
      exact ⟨ls, rfl, next⟩
  · rintro ⟨ls', rfl, next⟩
    exact .step nonempty cut next

/-! ### Reading back -/

/-- Lexing the text gives these tokens and perhaps whitespace. -/
def Rereads (limits : Limits) (m : Mode) (x : Text) (V : List Token) : Prop :=
  ∃ ls, Cuts limits m x ls ∧ visible (ls.map Lexeme.toToken) = V

theorem rereads_blank (space : Token.isSpaceText text = true)
    (cut : m.cut? limits (text ++ rest) = some (kind, text.length)) :
    Rereads limits m (text ++ rest) V ↔ Rereads limits (m.accept kind text) rest V := by
  have nonempty := (Scan.isSpaceText_iff.mp space).1
  have token : Lexeme.toToken ⟨kind, text⟩ = ⟨.whitespace, text⟩ := by
    simp [Lexeme.toToken, Token.classify, space]
  unfold Rereads
  simp only [cuts_step nonempty cut]
  constructor
  · rintro ⟨_, ⟨ls, rfl, cuts⟩, same⟩
    rw [List.map_cons, token] at same
    exact ⟨ls, cuts, same⟩
  · rintro ⟨ls, cuts, same⟩
    refine ⟨_, ⟨ls, rfl, cuts⟩, ?_⟩
    rw [List.map_cons, token]
    exact same

theorem rereads_seen (nonempty : text ≠ []) (space : Token.isSpaceText text = false)
    (seen : kind ≠ .whitespace) (cut : m.cut? limits (text ++ rest) = some (kind, text.length)) :
    Rereads limits m (text ++ rest) (t :: V) ↔
      t = ⟨kind, text⟩ ∧ Rereads limits (m.accept kind text) rest V := by
  have token : Lexeme.toToken ⟨kind, text⟩ = ⟨kind, text⟩ := by
    simp [Lexeme.toToken, Token.classify, space]
  have shows : ∀ ls : List Lexeme, visible ((⟨kind, text⟩ :: ls : List Lexeme).map Lexeme.toToken) =
      ⟨kind, text⟩ :: visible (ls.map Lexeme.toToken) := by
    intro ls
    rw [List.map_cons, token, visible_of_seen (beq_eq_false_iff_ne.mpr seen)]
  unfold Rereads
  simp only [cuts_step nonempty cut]
  constructor
  · rintro ⟨_, ⟨ls, rfl, cuts⟩, same⟩
    rw [shows] at same
    obtain ⟨rfl, rfl⟩ := List.cons.inj same
    exact ⟨rfl, ls, cuts, rfl⟩
  · rintro ⟨rfl, ls, cuts, rfl⟩
    exact ⟨_, ⟨ls, rfl, cuts⟩, shows ls⟩

/-- Whitespace runs up to the next character that is none. -/
theorem rereads_spaces (code : m.inCode = true) (space : ∀ c ∈ p, Text.isSpace c = true)
    (stops : x.head?.any Text.isSpace = false) :
    Rereads limits m (p ++ x) V ↔ Rereads limits m x V := by
  cases p with
  | nil => exact Iff.rfl
  | cons c p =>
    have takes := (Text.takeWhile_append_of_head space stops).1
    have cut : m.cut? limits (c :: p ++ x) = some (.whitespace, (c :: p).length) := by
      rw [Mode.cut?, if_pos code, List.cons_append, cutCode, if_pos (space c List.mem_cons_self),
        ← List.cons_append, takes]
      rfl
    rw [rereads_blank (Scan.isSpaceText_iff.mpr ⟨by simp, space⟩) cut]
    exact Iff.rfl

/-! ### Where a heredoc may start -/

theorem noHeredoc_cons : NoHeredoc (t :: ts) ↔
    (t = ⟨.operator, "<<".toList⟩ → "<<<".toList.isPrefixOf (texts (t :: ts)) = true →
      Heredoc.header? (texts (t :: ts)) = none) ∧ NoHeredoc ts := by
  constructor
  · intro none
    refine ⟨?_, fun before after split => none (t :: before) after (by rw [split]; rfl)⟩
    rintro rfl
    exact none [] ts rfl
  · rintro ⟨first, later⟩ before after split
    cases before with
    | nil =>
      obtain ⟨rfl, rfl⟩ := List.cons.inj split
      exact first rfl
    | cons u before =>
      obtain ⟨rfl, rfl⟩ := List.cons.inj split
      exact later before after rfl

theorem noHeredoc_cons_of_ne (other : t ≠ ⟨.operator, "<<".toList⟩) :
    NoHeredoc (t :: ts) ↔ NoHeredoc ts := by
  rw [noHeredoc_cons]
  exact and_iff_right fun is => (other is).elim

theorem noHeredoc_cons_of_blank (blank : t.isWhitespace = true) : NoHeredoc (t :: ts) ↔ NoHeredoc ts := by
  refine noHeredoc_cons_of_ne ?_
  rintro rfl
  cases blank

instance decidableNoHeredoc : (ts : List Token) → Decidable (NoHeredoc ts)
  | [] => isTrue (by simp [NoHeredoc])
  | _ :: ts =>
    have := decidableNoHeredoc ts
    decidable_of_iff' _ noHeredoc_cons

theorem operatorLength_shift {c : Char} (other : c ≠ '=') :
    operatorLength ('<' :: '<' :: c :: x) = 2 := by
  simp [operatorLength, operators, other.symm]

theorem cutCode_shift {afterAccess : Bool} (free : x.head? ≠ some '=')
    (none : "<<<".toList.isPrefixOf ("<<".toList ++ x) = true →
      Heredoc.header? ("<<".toList ++ x) = none) :
    cutCode limits 0 afterAccess ("<<".toList ++ x) = .ok (.operator, 2) := by
  cases x with
  | nil => rfl
  | cons c x =>
    by_cases third : c = '<'
    · subst third
      show cutHeredoc limits 0 ("<<".toList ++ '<' :: x) = _
      rw [cutHeredoc, none rfl]
    · have other : c ≠ '=' := fun same => free (by rw [same]; rfl)
      have noHeredoc : "<<<".toList.isPrefixOf ('<' :: '<' :: c :: x) = false := by
        simp [List.isPrefixOf, Ne.symm third]
      show (if "<<<".toList.isPrefixOf ('<' :: '<' :: c :: x) = true then _ else
        if operatorLength ('<' :: '<' :: c :: x) != 0 then
          Except.ok (TokenKind.operator, operatorLength ('<' :: '<' :: c :: x)) else _) = _
      rw [noHeredoc, operatorLength_shift other]
      rfl

/-- Where a heredoc starts no operator is read. -/
theorem not_rereads_heredoc (code : m.inCode = true) (starts : "<<<".toList.isPrefixOf x = true)
    (header : Heredoc.header? x ≠ none) : ¬ Rereads limits m x (⟨.operator, text⟩ :: V) := by
  rintro ⟨ls, cuts, same⟩
  obtain ⟨h, found⟩ := Option.ne_none_iff_exists'.mp header
  obtain ⟨rest, whole⟩ := List.isPrefixOf_iff_prefix.mp starts
  cases cuts with
  | done => cases starts
  | @step _ kind text rest' ls nonempty cut next =>
    have heredoc : cutCode limits 0 m.afterAccess (text ++ rest') = cutHeredoc limits 0 (text ++ rest') := by
      rw [← whole]
      rfl
    have cut := cut?_code code cut
    have blank : Token.isSpaceText text = false := by
      obtain ⟨c, y, rfl⟩ := List.exists_cons_of_ne_nil nonempty
      obtain rfl : '<' = c := (List.cons.inj whole).1
      rfl
    have string : kind = .stringLiteral := by
      rw [heredoc, cutHeredoc, found] at cut
      dsimp only at cut
      split at cut
      · exact (cutString_ok.mp cut).2.1
      · cases cut
    have token : Lexeme.toToken ⟨kind, text⟩ = ⟨.stringLiteral, text⟩ := by
      simp [Lexeme.toToken, Token.classify, blank, string]
    rw [List.map_cons, token] at same
    cases (List.cons.inj same).1

/-! ### Reading tokens back -/

theorem first_of_seen {afterAccess : Bool} (seen : kind ≠ .whitespace)
    (ok : cutCode limits 0 afterAccess x = .ok (kind, n)) : x.head?.any Text.isSpace = false := by
  cases x with
  | nil => rfl
  | cons c x =>
    rw [List.head?_cons, Option.any_some, Bool.eq_false_iff]
    intro space
    rw [cutCode, if_pos space] at ok
    exact seen (Prod.mk.inj (Except.ok.inj ok)).1.symm

/-- The whitespace `p` was read before the tokens and may run on into their own. -/
theorem rereads_pending (legible : Legible limits m ts []) (plain : Plain ts)
    (space : ∀ c ∈ p, Text.isSpace c = true) (code : p ≠ [] → m.inCode = true) :
    Rereads limits m (p ++ texts ts) (visible ts) ↔ NoHeredoc ts := by
  induction ts generalizing m p with
  | nil =>
    refine iff_of_true ?_ (by simp [NoHeredoc])
    have done : Rereads limits m [] [] := ⟨[], .done, rfl⟩
    by_cases nonempty : p = []
    · rw [nonempty]
      exact done
    · exact (rereads_spaces (code nonempty) space rfl).mpr done
  | cons t ts ih =>
    obtain ⟨reads, rest⟩ := legible
    have plain' : Plain ts := fun u member => plain u (List.mem_cons_of_mem t member)
    have flush : (m.inCode = true → (t.text ++ texts ts).head?.any Text.isSpace = false) →
        (Rereads limits m (p ++ (t.text ++ texts ts)) (visible (t :: ts)) ↔
          Rereads limits m (t.text ++ texts ts) (visible (t :: ts))) := by
      intro solid
      by_cases nonempty : p = []
      · rw [nonempty]
        rfl
      · exact rereads_spaces (code nonempty) space (solid (code nonempty))
    rw [List.append_nil] at reads
    rw [Token.texts_cons]
    cases reads with
    | space blank inCode spaced =>
      have all := (Scan.isSpaceText_iff.mp (plain t List.mem_cons_self blank)).2
      have same : m.after t = m := by rw [Mode.after_whitespace blank, if_pos inCode]
      rw [same] at rest
      have ih := ih (p := p ++ t.text) rest plain' (fun c member =>
        (List.mem_append.mp member).elim (space c) (all c)) fun _ => inCode
      rw [List.append_assoc] at ih
      rw [visible_of_blank blank, ih, noHeredoc_cons_of_blank blank]
    | outside blank outside spaced cut =>
      have pending : p = [] := by
        by_contra nonempty
        rw [code nonempty] at outside
        cases outside
      have cut : m.cut? limits (t.text ++ texts ts) = some (.inlineText, t.text.length) := by
        rw [Mode.cut?, if_neg (by simp [outside]), cut]
      have after : m.accept .inlineText t.text = m.after t := by
        simp [Mode.accept, Mode.after, Mode.kindOf, blank, outside]
      have ih := ih (p := []) rest plain' (by simp) fun none => (none rfl).elim
      rw [pending, List.nil_append, rereads_blank (plain t List.mem_cons_self blank) cut, after,
        visible_of_blank blank, ← List.nil_append (texts ts), ih, noHeredoc_cons_of_blank blank]
    | shift is inCode free =>
      subst is
      rw [flush fun _ => rfl, noHeredoc_cons, Token.texts_cons]
      by_cases starts : "<<<".toList.isPrefixOf ("<<".toList ++ texts ts) = true →
          Heredoc.header? ("<<".toList ++ texts ts) = none
      · have cut : m.cut? limits ("<<".toList ++ texts ts) = some (.operator, 2) := by
          rw [Mode.cut?, if_pos inCode, cutCode_shift free starts]
          rfl
        have ih := ih (p := []) rest plain' (by simp) fun none => (none rfl).elim
        rw [visible_of_seen rfl, rereads_seen (by simp) rfl (by decide) cut]
        exact ⟨fun read => ⟨fun _ => starts, ih.mp read.2⟩, fun none => ⟨rfl, ih.mpr none.2⟩⟩
      · obtain ⟨prefixed, header⟩ := Classical.not_imp.mp starts
        rw [visible_of_seen rfl]
        exact iff_of_false (not_rereads_heredoc inCode prefixed header) fun none => starts (none.1 rfl)
    | lexeme seen other some solid cut =>
      have after : m.accept t.kind t.text = m.after t := by
        simp [Mode.accept, Mode.after, Mode.kindOf, seen]
      have kind : t.kind ≠ .whitespace := beq_eq_false_iff_ne.mp seen
      rw [flush fun inCode => first_of_seen kind (cut?_code inCode cut)]
      have ih := ih (p := []) rest plain' (by simp) fun none => (none rfl).elim
      rw [visible_of_seen seen, rereads_seen some solid kind cut, after, noHeredoc_cons_of_ne other]
      exact ⟨fun read => ih.mp read.2, fun none => ⟨rfl, ih.mpr none⟩⟩

theorem countP_texts (ts : List Token) (q : Char → Bool) : (texts ts).countP q =
    (texts (visible ts)).countP q + (texts (ts.filter Token.isWhitespace)).countP q := by
  induction ts with
  | nil => rfl
  | cons t ts ih =>
    cases blank : t.isWhitespace with
    | true =>
      rw [visible_of_blank blank, List.filter_cons_of_pos blank, Token.texts_cons, Token.texts_cons,
        List.countP_append, List.countP_append, ih]
      omega
    | false =>
      rw [visible_of_seen blank, List.filter_cons_of_neg (by simp [blank]), Token.texts_cons,
        Token.texts_cons, List.countP_append, List.countP_append, ih]
      omega

theorem countP_blanks : (texts (ts.filter Token.isWhitespace)).countP (fun c => !Text.isSpace c) = 0 ↔
    ∀ t ∈ ts, t.isWhitespace = true → ∀ c ∈ t.text, Text.isSpace c = true := by
  simp only [List.countP_eq_zero, texts, List.mem_flatMap, List.mem_filter]
  constructor
  · intro none t member blank c inText
    simpa using none c ⟨t, ⟨member, blank⟩, inText⟩
  · rintro all c ⟨t, ⟨member, blank⟩, inText⟩
    simp [all t member blank c inText]

/-- Whitespace that is read elsewhere has no other characters either. -/
theorem plain_of_same {us : List Token} (legible : Legible limits m ts []) (plain : Plain us)
    (whole : texts us = texts ts) (same : visible us = visible ts) : Plain ts := by
  have read : (texts (us.filter Token.isWhitespace)).countP (fun c => !Text.isSpace c) = 0 :=
    countP_blanks.mpr fun t member blank => (Scan.isSpaceText_iff.mp (plain t member blank)).2
  have counts := countP_texts us fun c => !Text.isSpace c
  have counts' := countP_texts ts fun c => !Text.isSpace c
  rw [whole, same] at counts
  have none := countP_blanks.mp (show (texts (ts.filter Token.isWhitespace)).countP _ = 0 by omega)
  intro t member blank
  refine Scan.isSpaceText_iff.mpr ⟨?_, none t member blank⟩
  intro empty
  have spaced := legible.spaced member blank
  simp [Spaced, empty] at spaced

theorem plain_iff (legible : Legible limits m ts []) : Plain ts ↔ NoFormFeed ts := by
  constructor
  · intro plain t member blank feed
    have space := (Scan.isSpaceText_iff.mp (plain t member blank)).2 _ feed
    cases space
  · intro none t member blank
    have spaced := legible.spaced member blank
    refine Scan.isSpaceText_iff.mpr ⟨?_, fun c inside => ?_⟩
    · intro empty
      simp [Spaced, empty] at spaced
    · have either := spaced.2 c inside
      have other : c ≠ '\x0c' := by
        rintro rfl
        exact none t member blank inside
      simp only [Text.isSpace, Text.isIndent, Bool.or_eq_true, beq_iff_eq] at either ⊢
      tauto

/-- Legible tokens are read back, or there are too many of them. -/
theorem rereads_iff (legible : Legible limits ⟨false, false⟩ ts [])
    (room : ∀ count max, (Scan.ofSource limits (texts ts)).result ≠ .error (.tokenLimit count max)) :
    (∃ lexemes, (Scan.ofSource limits (texts ts)).result = .ok lexemes ∧
        visible (lexemes.map Lexeme.toToken) = visible ts) ↔ NoFormFeed ts ∧ NoHeredoc ts := by
  rw [← plain_iff legible]
  constructor
  · rintro ⟨lexemes, ok, same⟩
    obtain ⟨whole, rfl⟩ := Scan.result_ok.mp ok
    have lexes := Scan.lexes_of_run (Nat.le_refl _) whole
    obtain ⟨pieces, all, texts', -, plain⟩ := lexes.legible
    obtain ⟨ls, cuts, all'⟩ := Cuts.of_lexes lexes
    change (Scan.ofSource limits (texts ts)).lexemes.toList = [] ++ pieces at all
    change (Scan.ofSource limits (texts ts)).lexemes.toList = [] ++ ls at all'
    rw [List.nil_append] at all all'
    rw [← all] at texts' plain
    have plain := plain_of_same legible plain texts' same
    refine ⟨plain, (rereads_pending (p := []) legible plain (by simp) (by simp)).mp ?_⟩
    exact ⟨ls, cuts, by rw [← all']; exact same⟩
  · rintro ⟨plain, none⟩
    obtain ⟨ls, cuts, same⟩ :=
      (rereads_pending (p := []) legible plain (by simp) (by simp)).mpr none
    rcases Cuts.run (s := {}) cuts (Nat.le_refl _) rfl with ok | ⟨count, max, full⟩
    · exact ⟨ls, ok, same⟩
    · exact (room count max full).elim

end Lexer

end Restyle
