import Restyle.Proofs.Lexer.Legible
import Restyle.Proofs.Rule.Effect
import Restyle.Proofs.Rule.Tokens

/-!
# What the rule writes can be read

Statements and constructors are legible wherever they are put into code, if the values copied into
them are.
-/

namespace Restyle

namespace Text

/-- The lines of a text, put together again. -/
theorem exists_lines (t : Text) :
    ∃ line rest, lines t = line :: rest ∧ t = line ++ rest.flatMap fun line => '\n' :: line := by
  induction t with
  | nil => exact ⟨[], [], rfl, rfl⟩
  | cons c t ih =>
    obtain ⟨line, rest, cut, same⟩ := ih
    have step : lines (c :: t) = if c == '\n' then [] :: line :: rest else (c :: line) :: rest := by
      unfold lines at cut ⊢
      rw [List.foldr_cons, cut]
    by_cases feed : c = '\n'
    · exact ⟨[], line :: rest, by rw [step, if_pos (beq_iff_eq.mpr feed)], by simp [feed, same]⟩
    · exact ⟨c :: line, rest, by rw [step, if_neg (by simpa using feed)], by simp [same]⟩

end Text

namespace Lexer
open Token (texts)
variable {limits : Limits} {m : Mode} {t : Token} {ts us : List Token} {r x : Text} {c : Char}
  {a a' : Bool} {line n : Nat} {kind : TokenKind}

/-! ### Tokens of code -/

theorem Reads.inCode (reads : Reads limits m t r) (seen : t.isWhitespace = false)
    (notText : t.kind ≠ .inlineText) (notTag : t.kind ≠ .openTag) : m.inCode = true := by
  cases reads with
  | space _ code => exact code
  | shift _ code => exact code
  | outside blank =>
    rw [seen] at blank
    cases blank
  | lexeme _ _ _ _ cut =>
    by_contra outside
    have kinds := cutInline_kind (x := t.text ++ r)
    rw [cut?_outside (Bool.eq_false_iff.mpr outside) cut] at kinds
    exact kinds.elim notTag notText

theorem Mode.inCode_of_after (blank : t.isWhitespace = true) (code : (m.after t).inCode = true) :
    m.inCode = true := by
  rw [after_whitespace blank] at code
  by_contra outside
  rw [if_neg outside] at code
  cases code

/-- A bracket, a comma, a semicolon or a variable. -/
def isMark (t : Token) : Bool := t.kind == .punctuation || t.kind == .variableName

theorem kind_of_isMark (mark : isMark t = true) : t.kind = .punctuation ∨ t.kind = .variableName := by
  simpa [isMark] using mark

theorem Reads.after_mark (reads : Reads limits m t r) (mark : isMark t = true) :
    m.inCode = true ∧ m.after t = ⟨true, false⟩ := by
  have seen : t.isWhitespace = false := by
    rcases kind_of_isMark mark with kind | kind <;> simp [Token.isWhitespace, kind]
  have code : m.inCode = true := by
    rcases kind_of_isMark mark with kind | kind <;>
      exact reads.inCode seen (by simp [kind]) (by simp [kind])
  refine ⟨code, ?_⟩
  rcases kind_of_isMark mark with kind | kind <;>
    simp [Mode.after, Mode.kindOf, seen, kind, inCodeAfter, accessAfter, code]

theorem after_filler (filler : t.isSignificant = false) :
    (⟨true, false⟩ : Mode).after t = ⟨true, false⟩ := by
  cases blank : t.isWhitespace with
  | true => exact Mode.after_whitespace blank
  | false =>
    have comment : t.isComment = true := by simpa [Token.isSignificant, blank] using filler
    simp only [Token.isComment, Bool.or_eq_true, beq_iff_eq] at comment
    rcases comment with kind | kind <;>
      simp [Mode.after, Mode.kindOf, blank, kind, inCodeAfter, accessAfter]

theorem afterAll_fillers (fillers : ∀ t ∈ ts, t.isSignificant = false) :
    (⟨true, false⟩ : Mode).afterAll ts = ⟨true, false⟩ := by
  induction ts with
  | nil => rfl
  | cons t ts ih =>
    rw [Mode.afterAll_cons, after_filler (fillers t List.mem_cons_self)]
    exact ih fun u member => fillers u (List.mem_cons_of_mem _ member)

/-- A name: a word, reserved or not. -/
def IsName (name : Text) : Prop := startsWord name = true ∧ ∀ c ∈ name, isWordChar c = true

theorem IsName.solid {name : Text} (named : IsName name) : name ≠ [] ∧ Token.isSpaceText name = false := by
  obtain ⟨starts, all⟩ := named
  have nonempty : name ≠ [] := by
    rintro rfl
    cases starts
  obtain ⟨c, rest, rfl⟩ := List.exists_cons_of_ne_nil nonempty
  refine ⟨nonempty, ?_⟩
  simp [Token.isSpaceText, isSpace_of_word (all c List.mem_cons_self)]

/-- A name does not start with a dollar sign. -/
theorem IsName.dropWhile {name : Text} (named : IsName name) :
    ('$' :: name).dropWhile (· == '$') = name := by
  rw [List.dropWhile_cons_of_pos rfl]
  cases name with
  | nil => rfl
  | cons c name =>
    refine List.dropWhile_cons_of_neg ?_
    intro dollar
    have starts := named.1
    rw [beq_iff_eq.mp dollar] at starts
    cases starts

theorem CodeCut.isName {afterAccess : Bool} (cut : CodeCut limits afterAccess c x kind n)
    (named : kind = .variableName) : c = '$' ∧ startsWord x = true ∧ n = wordLength x + 1 := by
  cases cut with
  | variableName first starts => exact ⟨first, starts, rfl⟩
  | word =>
    simp only [cutWord] at named
    split at named <;> cases named
  | blockComment => split at named <;> cases named
  | _ => cases named

theorem Reads.isName (reads : Reads limits m t r) (kind : t.kind = .variableName) :
    ∃ name, IsName name ∧ t.text = '$' :: name := by
  have seen : t.isWhitespace = false := by simp [Token.isWhitespace, kind]
  have code := reads.inCode seen (by simp [kind]) (by simp [kind])
  cases reads with
  | space blank =>
    rw [seen] at blank
    cases blank
  | outside blank =>
    rw [seen] at blank
    cases blank
  | shift is =>
    rw [is] at kind
    cases kind
  | lexeme _ _ some _ cut =>
    have cut := cut?_code code cut
    obtain ⟨c, name, text⟩ := List.exists_cons_of_ne_nil some
    rw [text, List.cons_append] at cut
    obtain ⟨rfl, starts, length⟩ := (codeCut_of_cutCode cut).isName kind
    have length : name.length = ((name ++ r).takeWhile isWordChar).length := Nat.succ.inj length
    refine ⟨name, ⟨?_, all_of_length length⟩, text⟩
    cases name with
    | cons d name => exact starts
    | nil =>
      cases r with
      | nil => cases starts
      | cons d r =>
        have word : isWordChar d = true := by
          rw [isWordChar, show isWordStart d = true from starts]
          rfl
        rw [List.nil_append, List.takeWhile_cons_of_pos word] at length
        cases length

theorem cutCode_word (start : isWordStart c = true) :
    cutCode limits line a (c :: x) = .ok (cutWord a (c :: x)) := by
  have notSpace : Text.isSpace c = false := isSpace_of_word (by simp [isWordChar, start])
  have notDollar : c ≠ '$' := by
    rintro rfl
    cases start
  simp [cutCode, notSpace, notDollar, start]

/-- Only words are read differently after `->`. -/
theorem cutCode_access (mark : kind = .punctuation ∨ kind = .variableName)
    (ok : cutCode limits line a x = .ok (kind, n)) : cutCode limits line a' x = .ok (kind, n) := by
  cases x with
  | nil => exact ok
  | cons c x =>
    cases start : isWordStart c with
    | true =>
      rw [cutCode_word start] at ok
      have is : (cutWord a (c :: x)).1 = kind := congrArg Prod.fst (Except.ok.inj ok)
      rw [cutWord] at is
      dsimp only at is
      split at is <;> subst is <;> simp at mark
    | false =>
      rw [← ok]
      simp [cutCode, start]

theorem Legible.enter (legible : Legible limits m (t :: ts) r) (mark : isMark t = true) :
    m.inCode = true ∧ ∀ m' : Mode, m'.inCode = true → Legible limits m' (t :: ts) r := by
  obtain ⟨reads, rest⟩ := legible
  obtain ⟨code, after⟩ := reads.after_mark mark
  refine ⟨code, fun m' code' => ?_⟩
  have reads' : Reads limits m' t (texts ts ++ r) := by
    cases reads with
    | space blank _ spaced => exact .space blank code' spaced
    | outside _ outside =>
      rw [code] at outside
      cases outside
    | shift is _ free => exact .shift is code' free
    | lexeme seen other some solid cut =>
      refine .lexeme seen other some solid ?_
      rw [Mode.cut?, if_pos code', cutCode_access (kind_of_isMark mark) (cut?_code code cut)]
      rfl
  refine ⟨reads', ?_⟩
  rw [(reads'.after_mark mark).2, ← after]
  exact rest

/-- Behind whitespace a mark can be read wherever code is. -/
theorem Legible.enter_spaces {spaces : List Token} (blank : ∀ t ∈ spaces, t.isWhitespace = true)
    (legible : Legible limits m (spaces ++ t :: ts) r) (mark : isMark t = true) :
    m.inCode = true ∧ ∀ m' : Mode, m'.inCode = true → Legible limits m' (spaces ++ t :: ts) r := by
  induction spaces generalizing m with
  | nil => exact legible.enter mark
  | cons s spaces ih =>
    obtain ⟨reads, rest⟩ := legible
    have isBlank := blank s List.mem_cons_self
    obtain ⟨code, change⟩ := ih (fun u member => blank u (List.mem_cons_of_mem _ member)) rest
    refine ⟨Mode.inCode_of_after isBlank code, fun m' code' => ⟨.space isBlank code' (reads.spaced isBlank), ?_⟩⟩
    rw [Mode.after_whitespace isBlank, if_pos code']
    exact change m' code'

def isSolid (t : Token) : Bool :=
  !t.isWhitespace && t != ⟨.operator, "<<".toList⟩ && !t.text.isEmpty && !Token.isSpaceText t.text

theorem Reads.solid (solid : isSolid t = true) (code : m.inCode = true)
    (cut : cutCode limits 0 m.afterAccess (t.text ++ r) = .ok (t.kind, t.text.length)) :
    Reads limits m t r := by
  simp only [isSolid, Bool.and_eq_true, Bool.not_eq_true', bne_iff_ne, List.isEmpty_eq_false_iff] at solid
  obtain ⟨⟨⟨seen, other⟩, nonempty⟩, notSpace⟩ := solid
  refine .lexeme seen other nonempty notSpace ?_
  rw [Mode.cut?, if_pos code, cut]
  rfl

/-- Tokens that can be read whatever follows, and leave the lexer where it is at the start of code. -/
def Closed (limits : Limits) (m : Mode) (ts : List Token) : Prop :=
  (∀ r, Legible limits m ts r) ∧ m.afterAll ts = ⟨true, false⟩

theorem closed_of_mark (legible : ∀ r, Legible limits m (ts ++ [t]) r) (mark : isMark t = true) :
    Closed limits m (ts ++ [t]) := by
  refine ⟨legible, ?_⟩
  obtain ⟨-, reads, -⟩ := legible_append.mp (legible [])
  rw [Mode.afterAll_append]
  exact (reads.after_mark mark).2

theorem Closed.append (first : ∀ r, Legible limits m ts r) (second : Closed limits (m.afterAll ts) us) :
    Closed limits m (ts ++ us) := by
  refine ⟨fun r => legible_append.mpr ⟨first _, second.1 r⟩, ?_⟩
  rw [Mode.afterAll_append]
  exact second.2

end Lexer

namespace ConstructorDefaults
open Lexer Token
variable {limits : Limits} {m : Mode} {t : Token} {core : List Token} {r x name indent : Text} {a : Bool}
  {statements : List (List Token)}

/-! ### Whitespace -/

theorem isWhitespace_newLine : (newLine indent).isWhitespace = true := isWhitespace_classify _

theorem spaced_of_indents (indents : Text.Indents indent) : Spaced ('\n' :: indent) := by
  refine ⟨rfl, fun c member => ?_⟩
  rcases List.mem_cons.mp member with rfl | inside
  · rfl
  · simp [indents c inside]

theorem reads_newLine (indents : Text.Indents indent) (code : m.inCode = true) :
    Reads limits m (newLine indent) r :=
  .space isWhitespace_newLine code (spaced_of_indents indents)

theorem reads_space (code : m.inCode = true) : Reads limits m space r := by
  have all : space.text.all (fun c => Text.isSpace c || Text.isIndent c) = true := rfl
  exact .space rfl code ⟨rfl, List.all_eq_true.mp all⟩

theorem refits_reindent {source target : Text} (indents : Text.Indents target) :
    Refits (reindent source target) where
  seen := by
    intro t seen
    simp [reindent, seen]
  blank := by
    intro t blank spaced
    unfold reindent
    split
    · exact ⟨blank, spaced, rfl⟩
    · rename_i breaks
      obtain ⟨line, rest, cut, same⟩ := Text.exists_lines t.text
      rw [cut]
      have first : ∀ f : Text → Text,
          (line ++ rest.flatMap fun line => '\n' :: f line).head? = t.text.head? := by
        intro f
        rw [same]
        cases line with
        | cons c line => rfl
        | nil =>
          cases rest with
          | nil => rfl
          | cons line rest => rfl
      refine ⟨isWhitespace_classify _, ⟨?_, ?_⟩, first _⟩
      · exact (congrArg (Option.any Text.isSpace) (first _)).trans spaced.1
      · intro c member
        have old : ∀ c ∈ t.text, (Text.isSpace c || Text.isIndent c) = true := spaced.2
        rw [same] at old
        rcases List.mem_append.mp member with inside | inside
        · exact old c (List.mem_append_left _ inside)
        obtain ⟨piece, among, inside⟩ := List.mem_flatMap.mp inside
        have old : ∀ c ∈ piece, (Text.isSpace c || Text.isIndent c) = true := fun c member =>
          old c (List.mem_append_right _ (List.mem_flatMap.mpr
            ⟨piece, among, List.mem_cons_of_mem _ member⟩))
        rcases List.mem_cons.mp inside with rfl | inside
        · rfl
        dsimp only at inside
        split at inside
        · rename_i stripped
          rcases List.mem_append.mp inside with new | kept
          · simp [indents c new]
          · unfold Text.strip? at stripped
            split at stripped
            · rw [← Option.some.inj stripped] at kept
              exact old c (List.mem_of_mem_drop kept)
            · cases stripped
        · exact old c inside

/-! ### Statements -/

theorem cutCode_name (named : IsName name) :
    cutCode limits 0 true (name ++ ' ' :: r) = .ok (.identifier, name.length) := by
  obtain ⟨starts, all⟩ := named
  obtain ⟨c, rest, rfl⟩ := List.exists_cons_of_ne_nil (show name ≠ [] by
    rintro rfl
    cases starts)
  have whole : wordLength (c :: rest ++ ' ' :: r) = (c :: rest).length := by
    rw [wordLength, (Text.takeWhile_append_of_head all rfl).1]
  rw [List.cons_append, cutCode_word (by simpa [startsWord] using starts), cutWord, ← List.cons_append,
    whole]
  rfl

/-- A statement can be read if its value can. -/
theorem closed_assignment (named : IsName name)
    (value : ∀ r, Legible limits ⟨true, false⟩ core (';' :: r))
    (code : ((⟨true, false⟩ : Mode).afterAll core).inCode = true) :
    Closed limits ⟨true, a⟩ ([.classify .variableName "$this".toList, operator "->", identifier name,
      space, operator "=", space] ++ core ++ [mark ';']) := by
  refine closed_of_mark (fun r => ?_) rfl
  obtain ⟨nonempty, solid⟩ := named.solid
  have is : identifier name = ⟨.identifier, name⟩ := by simp [identifier, classify, solid]
  have reads : Reads limits ⟨true, true⟩ ⟨.identifier, name⟩
      (' ' :: '=' :: ' ' :: (texts (core ++ [mark ';']) ++ r)) := by
    refine .lexeme rfl (by simp) nonempty solid ?_
    rw [Mode.cut?, if_pos rfl, cutCode_name named]
    rfl
  have behind : Legible limits ⟨true, false⟩ (core ++ [mark ';']) r :=
    legible_append.mpr ⟨value r, .solid rfl code rfl, trivial⟩
  rw [List.append_assoc, is]
  exact ⟨.solid rfl rfl rfl, .solid rfl rfl rfl, reads, reads_space rfl, .solid rfl rfl rfl,
    reads_space rfl, behind⟩

theorem closed_parentCall : Closed limits ⟨true, false⟩ parentCall :=
  ⟨fun _ => ⟨.solid rfl rfl rfl, .solid rfl rfl rfl, .solid rfl rfl rfl, .solid rfl rfl rfl,
    .solid rfl rfl rfl, .solid rfl rfl rfl, trivial⟩, rfl⟩

theorem legible_block (indents : Text.Indents indent) (code : m.inCode = true)
    (each : ∀ s ∈ statements, Closed limits m s ∧ Closed limits ⟨true, false⟩ s) :
    (∀ r, Legible limits m (block indent statements) r) ∧
      (m.afterAll (block indent statements)).inCode = true := by
  induction statements generalizing m with
  | nil => exact ⟨fun _ => trivial, code⟩
  | cons s statements ih =>
    obtain ⟨⟨legible, after⟩, -⟩ := each s List.mem_cons_self
    obtain ⟨rest, inCode⟩ := ih (m := ⟨true, false⟩) rfl fun s' member => by
      have closed := (each s' (List.mem_cons_of_mem _ member)).2
      exact ⟨closed, closed⟩
    have line : m.after (newLine indent) = m := by
      rw [Mode.after_whitespace isWhitespace_newLine, if_pos code]
    have split : block indent (s :: statements) = newLine indent :: (s ++ block indent statements) := rfl
    rw [split]
    refine ⟨fun r => ⟨reads_newLine indents code, ?_⟩, ?_⟩
    · rw [line, legible_append, after]
      exact ⟨legible _, rest r⟩
    · rw [Mode.afterAll_cons, line, Mode.afterAll_append, after]
      exact inCode

theorem closed_brace {brace : Char} (is : brace = '{' ∨ brace = '}') (indents : Text.Indents indent)
    (code : m.inCode = true) : Closed limits m [newLine indent, mark brace] := by
  have line : m.after (newLine indent) = m := by
    rw [Mode.after_whitespace isWhitespace_newLine, if_pos code]
  have legible : ∀ r, Legible limits m ([newLine indent] ++ [mark brace]) r := by
    intro r
    refine ⟨reads_newLine indents code, ?_⟩
    rw [line]
    rcases is with rfl | rfl <;> exact ⟨.solid rfl code rfl, trivial⟩
  refine closed_of_mark legible ?_
  rcases is with rfl | rfl <;> rfl

theorem closed_signature {separator : Text} (spaced : Spaced separator) :
    Closed limits ⟨true, false⟩ [.classify .whitespace separator, keyword "public", space,
      keyword "function", space, identifier "__construct".toList, mark '(', mark ')'] := by
  have blank : (Token.classify .whitespace separator).isWhitespace = true := isWhitespace_classify _
  have after : (⟨true, false⟩ : Mode).after (.classify .whitespace separator) = ⟨true, false⟩ :=
    Mode.after_whitespace blank
  have opens : ∀ r, Legible limits ⟨true, false⟩ [.classify .whitespace separator] r :=
    fun _ => ⟨.space blank rfl spaced, trivial⟩
  refine Closed.append opens ?_
  rw [Mode.afterAll_cons, after]
  exact ⟨fun _ => ⟨.solid rfl rfl rfl, reads_space rfl, .solid rfl rfl rfl, reads_space rfl,
    .solid rfl rfl rfl, .solid rfl rfl rfl, .solid rfl rfl rfl, trivial⟩, rfl⟩

theorem closed_constructorTokens {separator propertyIndent : Text} (spaced : Spaced separator)
    (indents : Text.Indents indent) (indents' : Text.Indents propertyIndent)
    (each : ∀ s ∈ statements, Closed limits ⟨true, false⟩ s) :
    Closed limits ⟨true, false⟩ (constructorTokens separator propertyIndent indent statements) := by
  obtain ⟨body, code⟩ := legible_block (m := ⟨true, false⟩) indents rfl fun s member =>
    ⟨each s member, each s member⟩
  obtain ⟨signature, after⟩ := @closed_signature limits _ spaced
  obtain ⟨opens, after'⟩ := @closed_brace limits ⟨true, false⟩ _ '{' (.inl rfl) indents' rfl
  have split : constructorTokens separator propertyIndent indent statements =
      [.classify .whitespace separator, keyword "public", space, keyword "function", space,
        identifier "__construct".toList, mark '(', mark ')'] ++ ([newLine propertyIndent, mark '{'] ++
      (block indent statements ++ [newLine propertyIndent, mark '}'])) := by
    simp [constructorTokens]
  rw [split]
  apply Closed.append signature
  rw [after]
  apply Closed.append opens
  rw [after']
  exact Closed.append body (closed_brace (.inr rfl) indents' code)

end ConstructorDefaults

end Restyle
