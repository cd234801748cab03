import Restyle.Proofs.Lexer.Context
import Restyle.Proofs.Lexer.Lossless

/-!
# Texts that are read back

A list of tokens is legible if the lexer cuts each of them from its text and that of the tokens that
follow. Whitespace may be cut elsewhere, since its tokens run together, and so may `<<`, since a
heredoc may start there. Both are put right where the whole list is read back.
-/

namespace Restyle

def Token.texts (ts : List Token) : Text := ts.flatMap (·.text)

@[simp] theorem Token.texts_nil : texts [] = [] := rfl

@[simp] theorem Token.texts_cons {t : Token} {ts : List Token} : texts (t :: ts) = t.text ++ texts ts := rfl

@[simp] theorem Token.texts_append {ts us : List Token} : texts (ts ++ us) = texts ts ++ texts us :=
  List.flatMap_append

namespace Lexer
open Token (texts)
variable {limits : Limits} {t u : Token} {ts us : List Token} {r r' x y a b : Text} {c : Char} {n : Nat}
  {kind : TokenKind} {line : Nat}

/-- What the lexer knows when it comes to a lexeme. -/
structure Mode where
  inCode : Bool
  afterAccess : Bool

namespace Mode
variable {m : Mode}

def cut? (limits : Limits) (m : Mode) (t : Text) : Option (TokenKind × Nat) :=
  if m.inCode then (cutCode limits 0 m.afterAccess t).toOption else some (cutInline t)

/-- The kind of the lexeme of a token. Outside of code whitespace is text like any other. -/
def kindOf (m : Mode) (t : Token) : TokenKind :=
  if t.isWhitespace && !m.inCode then .inlineText else t.kind

def after (m : Mode) (t : Token) : Mode :=
  ⟨inCodeAfter m.inCode (m.kindOf t) t.text, accessAfter m.afterAccess (m.kindOf t) t.text⟩

def afterAll (m : Mode) (ts : List Token) : Mode := ts.foldl after m

@[simp] theorem afterAll_nil : m.afterAll [] = m := rfl

@[simp] theorem afterAll_cons : m.afterAll (t :: ts) = (m.after t).afterAll ts := rfl

@[simp] theorem afterAll_append : m.afterAll (ts ++ us) = (m.afterAll ts).afterAll us :=
  List.foldl_append ..

end Mode

def Spaced (t : Text) : Prop :=
  t.head?.any Text.isSpace = true ∧ ∀ c ∈ t, (Text.isSpace c || Text.isIndent c) = true

/-- The lexer cuts the token if the text `r` follows it. -/
inductive Reads (limits : Limits) (m : Mode) (t : Token) (r : Text) : Prop
  | space : t.isWhitespace = true → m.inCode = true → Spaced t.text → Reads limits m t r
  | outside : t.isWhitespace = true → m.inCode = false → Spaced t.text →
      cutInline (t.text ++ r) = (.inlineText, t.text.length) → Reads limits m t r
  | shift : t = ⟨.operator, "<<".toList⟩ → m.inCode = true → r.head? ≠ some '=' → Reads limits m t r
  | lexeme : t.isWhitespace = false → t ≠ ⟨.operator, "<<".toList⟩ → t.text ≠ [] →
      Token.isSpaceText t.text = false → m.cut? limits (t.text ++ r) = some (t.kind, t.text.length) →
      Reads limits m t r

def Legible (limits : Limits) : Mode → List Token → Text → Prop
  | _, [], _ => True
  | m, t :: ts, r => Reads limits m t (texts ts ++ r) ∧ Legible limits (m.after t) ts r

variable {m : Mode}

theorem legible_append : Legible limits m (ts ++ us) r ↔
    Legible limits m ts (texts us ++ r) ∧ Legible limits (m.afterAll ts) us r := by
  induction ts generalizing m with
  | nil => simp [Legible]
  | cons t ts ih => simp [Legible, ih, and_assoc]

theorem Reads.nonempty (reads : Reads limits m t r) : t.text ≠ [] := by
  cases reads with
  | space blank code spaced =>
    intro none
    simp [Spaced, none] at spaced
  | outside blank code spaced =>
    intro none
    simp [Spaced, none] at spaced
  | shift is => simp [is]
  | lexeme seen other some => exact some

/-! ### Inside of code -/

theorem all_of_length {p : Char → Bool} (length : x.length = ((x ++ y).takeWhile p).length) :
    ∀ c ∈ x, p c = true := by
  have same : (x ++ y).takeWhile p = x :=
    (List.prefix_of_prefix_length_le (List.takeWhile_prefix p) (List.prefix_append x y)
      (by omega)).eq_of_length (by omega)
  intro c member
  rw [← same] at member
  exact List.mem_takeWhile_imp member

theorem cut?_code (code : m.inCode = true) (ok : m.cut? limits x = some (kind, n)) :
    cutCode limits 0 m.afterAccess x = .ok (kind, n) := by
  rw [Mode.cut?, if_pos code] at ok
  exact Outcome.toOption_some.mp ok

def isLineComment (t : Token) : Bool := t.kind == .comment && !"/*".toList.isPrefixOf t.text

/-- What follows a token of the code may change behind an inert character. -/
theorem Reads.follow (reads : Reads limits m t (y ++ a)) (code : m.inCode = true) (calm : Inert b)
    (ends : isLineComment t = true → Comment.Ends (y ++ a) → Comment.Ends (y ++ b)) :
    Reads limits m t (y ++ b) := by
  cases reads with
  | space blank code spaced => exact .space blank code spaced
  | outside blank outside =>
    rw [code] at outside
    cases outside
  | shift is code free =>
    refine .shift is code ?_
    cases y with
    | nil =>
      intro equals
      have still := calm '=' equals
      cases still
    | cons c y => exact free
  | lexeme seen other some solid ok =>
    refine .lexeme seen other some solid ?_
    have ok := cut?_code code ok
    rw [← List.append_assoc] at ok
    rw [Mode.cut?, if_pos code]
    refine Outcome.toOption_some.mpr ?_
    rw [← List.append_assoc]
    refine cutCode_append (by simp [some]) calm ok (by simp) ?_ ?_ ?_
    · intro blank
      simp [Token.isWhitespace, blank] at seen
    · intro operator shift
      rw [List.take_left] at shift
      refine other ?_
      rw [← operator, ← shift]
    · intro comment notBlock
      rw [List.append_assoc, List.append_assoc, List.drop_left, List.drop_left]
      refine ends ?_
      have notBlock : "/*".toList.isPrefixOf t.text = false := by
        rw [Bool.eq_false_iff]
        intro block
        rw [isPrefixOf_append block] at notBlock
        cases notBlock
      rw [isLineComment, comment, notBlock]
      rfl

/-! ### Outside of code -/

/-- A tag starts with `<`, and nowhere else has one. -/
theorem openTagLength_append (nonempty : x ≠ []) :
    openTagLength (x ++ '<' :: a) = openTagLength (x ++ '<' :: b) := by
  match x, nonempty with
  | [c₁], _ => simp [openTagLength, Text.sameIgnoringCase]
  | [c₁, c₂], _ => simp [openTagLength, Text.sameIgnoringCase]
  | [c₁, c₂, c₃], _ => simp [openTagLength, Text.sameIgnoringCase]
  | [c₁, c₂, c₃, c₄], _ => simp [openTagLength, Text.sameIgnoringCase]
  | c₁ :: c₂ :: c₃ :: c₄ :: c₅ :: rest, _ => simp [openTagLength, Text.sameIgnoringCase]

/-- Characters that come before the small letters are not made from capitals. -/
theorem eq_of_toLower {d : Char} (early : d.toNat < 97) (same : c.toLower = d) : c = d := by
  unfold Char.toLower at same
  split at same
  · rename_i upper
    have low : 65 ≤ c.val.toNat := upper.1
    have high : c.val.toNat ≤ 90 := upper.2
    have sum : (c.val + 32).toNat = d.toNat := congrArg (fun d : Char => d.val.toNat) same
    rw [UInt32.toNat_add] at sum
    have small : (32 : UInt32).toNat = 32 := rfl
    omega
  · exact same

theorem openTagLength_of_ne (other : c ≠ '<') : openTagLength (c :: x) = 0 := by
  have lower : c.toLower ≠ '<' := fun same => other (eq_of_toLower (by decide) same)
  simp [openTagLength, Text.sameIgnoringCase, lower, other.symm]

theorem openTagLength_tag (nonempty : x ≠ []) (is : openTagLength (x ++ a) = x.length) :
    openTagLength (x ++ b) = x.length ∧ ∃ y, x = '<' :: y := by
  obtain ⟨c, y, rfl⟩ := List.exists_cons_of_ne_nil nonempty
  have first : c = '<' := by
    by_contra other
    rw [List.cons_append, openTagLength_of_ne other] at is
    cases is
  subst first
  refine ⟨?_, y, rfl⟩
  unfold openTagLength at is ⊢
  split at is
  · rename_i tag
    rw [List.take_append_of_le_length (by omega)] at tag ⊢
    rw [if_pos tag]
    exact is
  · split at is
    · rename_i starts
      obtain ⟨rest, split⟩ := List.isPrefixOf_iff_prefix.mp starts
      have same : "<?=".toList = '<' :: y := List.append_inj_left split is
      rw [← same]
      rfl
    · cases is

theorem cutInline_text : cutInline x = (.inlineText, n) ↔
    n ≤ x.length ∧ openTagLength x = 0 ∧ (∀ i < n, openTagLength (x.drop i) = 0) ∧
      (n < x.length → openTagLength (x.drop n) ≠ 0) := by
  unfold cutInline
  split
  · rename_i tag
    simp only [bne_iff_ne] at tag
    simp [tag]
  · rename_i text
    simp only [bne_iff_ne, Decidable.not_not] at text
    rw [Prod.mk.injEq, inlineLength, Text.seek_eq]
    simp [text]

theorem cutInline_tag : cutInline x = (.openTag, n) ↔ openTagLength x = n ∧ n ≠ 0 := by
  unfold cutInline
  split
  · rename_i tag
    simp only [bne_iff_ne] at tag
    rw [Prod.mk.injEq]
    constructor
    · rintro ⟨-, rfl⟩
      exact ⟨rfl, tag⟩
    · rintro ⟨rfl, -⟩
      exact ⟨rfl, rfl⟩
  · rename_i text
    simp only [bne_iff_ne, Decidable.not_not] at text
    rw [text]
    constructor
    · intro same
      cases (Prod.mk.inj same).1
    · rintro ⟨rfl, none⟩
      exact (none rfl).elim

theorem cut?_outside (outside : m.inCode = false) (ok : m.cut? limits x = some (kind, n)) :
    cutInline x = (kind, n) := by
  rw [Mode.cut?, if_neg (by simp [outside])] at ok
  exact Option.some.inj ok

/-- Text ends at a tag. -/
theorem Reads.tag (reads : Reads limits m u r) (outside : m.inCode = false)
    (text : cutInline (x ++ (u.text ++ r)) = (.inlineText, x.length)) :
    u.isWhitespace = false ∧ openTagLength (u.text ++ r) = u.text.length := by
  have some := List.length_pos_iff.mpr reads.nonempty
  obtain ⟨-, -, -, ends⟩ := cutInline_text.mp text
  have tag := ends (by simp only [List.length_append]; omega)
  rw [List.drop_left] at tag
  cases reads with
  | space blank code =>
    rw [code] at outside
    cases outside
  | outside blank _ spaced again => exact (tag (cutInline_text.mp again).2.1).elim
  | shift is code =>
    rw [code] at outside
    cases outside
  | lexeme seen other some solid ok =>
    have here := cutInline_tag.mpr ⟨rfl, tag⟩
    rw [cut?_outside outside ok] at here
    exact ⟨seen, (Prod.mk.inj here).2.symm⟩

/-- Text before a tag. -/
theorem cutInline_before (nonempty : x ≠ []) (some : u.text ≠ [])
    (tag : openTagLength (u.text ++ r) = u.text.length)
    (free : ∀ i < x.length, ∀ a, openTagLength (x.drop i ++ '<' :: a) = 0) :
    cutInline (x ++ (u.text ++ r)) = (.inlineText, x.length) := by
  obtain ⟨-, y, is⟩ := openTagLength_tag (b := r) some tag
  have free : ∀ i < x.length, openTagLength ((x ++ (u.text ++ r)).drop i) = 0 := by
    intro i lt
    rw [List.drop_append_of_le_length (Nat.le_of_lt lt), is]
    exact free i lt (y ++ r)
  refine cutInline_text.mpr ⟨by simp, free 0 (List.length_pos_iff.mpr nonempty), free, fun _ => ?_⟩
  rw [List.drop_left, tag, Ne, List.length_eq_zero_iff]
  exact some

theorem Spaced.openTagLength (spaced : Spaced x) {i : Nat} (lt : i < x.length) :
    openTagLength (x.drop i ++ r) = 0 := by
  obtain ⟨c, rest, split⟩ := List.exists_cons_of_ne_nil (l := x.drop i) (by
    rw [Ne, List.drop_eq_nil_iff]
    omega)
  rw [split, List.cons_append]
  refine openTagLength_of_ne ?_
  rintro rfl
  have no := spaced.2 '<' (List.mem_of_mem_drop (by rw [split]; exact List.mem_cons_self))
  revert no
  decide

/-! ### Tokens that are changed in a legible way -/

/-- The function changes whitespace only, and not how it starts. -/
structure Refits (f : Token → Token) : Prop where
  seen : ∀ t, t.isWhitespace = false → f t = t
  blank : ∀ t, t.isWhitespace = true → Spaced t.text →
    (f t).isWhitespace = true ∧ Spaced (f t).text ∧ (f t).text.head? = t.text.head?

theorem refits_id : Refits id := ⟨fun _ _ => rfl, fun _ blank spaced => ⟨blank, spaced, rfl⟩⟩

theorem Mode.after_whitespace (blank : t.isWhitespace = true) :
    m.after t = if m.inCode then m else ⟨false, false⟩ := by
  have kind : t.kind = .whitespace := beq_iff_eq.mp blank
  obtain ⟨inCode, afterAccess⟩ := m
  cases inCode <;> simp [after, kindOf, blank, kind, inCodeAfter, accessAfter]

theorem Reads.spaced (reads : Reads limits m t r) (blank : t.isWhitespace = true) : Spaced t.text := by
  cases reads with
  | space _ _ spaced => exact spaced
  | outside _ _ spaced => exact spaced
  | shift is =>
    rw [is] at blank
    cases blank
  | lexeme seen =>
    rw [blank] at seen
    cases seen

theorem Legible.spaced (legible : Legible limits m ts r) (member : t ∈ ts)
    (blank : t.isWhitespace = true) : Spaced t.text := by
  induction ts generalizing m with
  | nil => cases member
  | cons u ts ih =>
    rcases List.mem_cons.mp member with rfl | later
    · exact legible.1.spaced blank
    · exact ih legible.2 later

theorem inert_of_isSpace (space : Text.isSpace c = true) : inert c = true := by
  simp only [Text.isSpace, Bool.or_eq_true, beq_iff_eq] at space
  rcases space with ((((rfl | rfl) | rfl) | rfl) | rfl) | rfl <;> decide

theorem isSpace_of_word (word : isWordChar c = true) : Text.isSpace c = false := by
  rw [Bool.eq_false_iff]
  intro space
  have still := inert_of_isSpace space
  rw [not_inert_of_word word] at still
  cases still

theorem Spaced.inert (spaced : Spaced x) : Inert (x ++ r) := by
  intro c head
  cases x with
  | nil => cases spaced.1
  | cons d x =>
    obtain rfl : d = c := Option.some.inj head
    exact inert_of_isSpace (by simpa using spaced.1)

/-- Whether a line ends with some whitespace is seen from how it starts. -/
theorem Spaced.ends (spaced : Spaced x) (head : y.head? = x.head?) (ends : Comment.Ends (x ++ a)) :
    Comment.Ends (y ++ b) := by
  cases x with
  | nil => cases spaced.1
  | cons c x =>
    obtain ⟨w, rfl⟩ := List.head?_eq_some_iff.mp head
    have space : Text.isSpace c = true := by simpa using spaced.1
    rcases ends with none | stops
    · cases none
    rw [List.cons_append, Comment.endsLine_cons, Bool.or_eq_true] at stops
    refine .inr ?_
    rw [List.cons_append, Comment.endsLine_cons, Bool.or_eq_true]
    refine .inl (stops.resolve_right fun tag => ?_)
    simp only [Bool.and_eq_true, beq_iff_eq] at tag
    rw [tag.1] at space
    cases space

/-- The texts are the same up to an inert character of the second. -/
def Alike (a b : Text) : Prop := ∃ y a' b', a = y ++ a' ∧ b = y ++ b' ∧ Inert b'

section Map
variable {f : Token → Token} (refits : Refits f)
include refits

theorem Reads.after_map (reads : Reads limits m t r) : m.after (f t) = m.after t := by
  cases blank : t.isWhitespace with
  | false => rw [refits.seen t blank]
  | true =>
    obtain ⟨blank', -, -⟩ := refits.blank t blank (reads.spaced blank)
    rw [Mode.after_whitespace blank, Mode.after_whitespace blank']

theorem Legible.afterAll_map (legible : Legible limits m ts r) :
    m.afterAll (ts.map f) = m.afterAll ts := by
  induction ts generalizing m with
  | nil => rfl
  | cons t ts ih =>
    rw [List.map_cons, Mode.afterAll_cons, Mode.afterAll_cons, legible.1.after_map refits]
    exact ih legible.2

theorem Legible.alike (legible : Legible limits m ts r) (calm : Inert r') :
    Alike (texts ts ++ r) (texts (ts.map f) ++ r') := by
  induction ts generalizing m with
  | nil => exact ⟨[], r, r', rfl, rfl, calm⟩
  | cons t ts ih =>
    cases blank : t.isWhitespace with
    | false =>
      obtain ⟨y, a, b, first, second, still⟩ := ih legible.2
      refine ⟨t.text ++ y, a, b, ?_, ?_, still⟩
      · rw [Token.texts_cons, List.append_assoc, first, List.append_assoc]
      · rw [List.map_cons, refits.seen t blank, Token.texts_cons, List.append_assoc, second,
          List.append_assoc]
    | true =>
      obtain ⟨-, spaced, -⟩ := refits.blank t blank (legible.1.spaced blank)
      refine ⟨[], _, (f t).text ++ (texts (ts.map f) ++ r'), rfl, ?_, spaced.inert⟩
      rw [List.map_cons, Token.texts_cons, List.append_assoc, List.nil_append]

/-- Whether a line comment ends here is seen from the next token alone. -/
theorem Reads.ends_map (reads : Reads limits m u a) (code : m.inCode = true)
    (ends : Comment.Ends (u.text ++ a)) : Comment.Ends ((f u).text ++ b) := by
  cases blank : u.isWhitespace with
  | true =>
    have spaced := reads.spaced blank
    exact spaced.ends (refits.blank u blank spaced).2.2 ends
  | false =>
    obtain ⟨c, w, text⟩ := List.exists_cons_of_ne_nil reads.nonempty
    rw [text] at ends
    rcases ends with none | stops
    · cases none
    rw [List.cons_append, Comment.endsLine_cons, Bool.or_eq_true] at stops
    refine .inr ?_
    rw [refits.seen u blank, text, List.cons_append, Comment.endsLine_cons, Bool.or_eq_true]
    rcases stops with line | tag
    · exact .inl line
    · simp only [Bool.and_eq_true, beq_iff_eq] at tag
      obtain ⟨rfl, head⟩ := tag
      cases w with
      | cons d w => exact .inr (by simp_all)
      | nil =>
        -- The lexer would have cut the tag as a whole.
        obtain ⟨rest, rfl⟩ := List.head?_eq_some_iff.mp head
        cases reads with
        | space blank' =>
          rw [blank] at blank'
          cases blank'
        | outside blank' =>
          rw [blank] at blank'
          cases blank'
        | shift is =>
          rw [is] at text
          cases text
        | lexeme seen other some solid ok =>
          have ok := cut?_code code ok
          rw [text] at ok
          have tag : cutCode limits 0 m.afterAccess ('?' :: '>' :: rest) = .ok (.openTag, 2) := rfl
          rw [List.cons_append, List.nil_append, tag] at ok
          cases (Prod.mk.inj (Except.ok.inj ok)).2

theorem Reads.follow_outside (reads : Reads limits m t (texts ts ++ r)) (outside : m.inCode = false)
    (rest : Legible limits (m.after t) ts r) (code : ((m.after t).afterAll ts).inCode = true) :
    Reads limits m (f t) (texts (ts.map f) ++ r') := by
  -- Text goes on to a tag, which stays.
  have before : ∀ x : Text, x = t.text ∨ Spaced x → x ≠ [] → (m.after t).inCode = false →
      cutInline (t.text ++ (texts ts ++ r)) = (.inlineText, t.text.length) →
      cutInline (x ++ (texts (ts.map f) ++ r')) = (.inlineText, x.length) := by
    intro x sort nonempty still text
    cases ts with
    | nil =>
      rw [Mode.afterAll_nil, still] at code
      cases code
    | cons u us =>
      rw [Token.texts_cons, List.append_assoc] at text
      obtain ⟨seen, tag⟩ := rest.1.tag still text
      have some := rest.1.nonempty
      obtain ⟨tag', w, is⟩ := openTagLength_tag (b := texts (us.map f) ++ r') some tag
      rw [List.map_cons, refits.seen u seen, Token.texts_cons, List.append_assoc]
      refine cutInline_before nonempty some tag' fun i lt a => ?_
      rcases sort with rfl | spaced
      · have zero := (cutInline_text.mp text).2.2.1 i lt
        rw [List.drop_append_of_le_length (Nat.le_of_lt lt), is] at zero
        have more : t.text.drop i ≠ [] := by
          rw [Ne, List.drop_eq_nil_iff]
          omega
        rw [← zero]
        exact openTagLength_append more
      · exact spaced.openTagLength lt
  cases reads with
  | space _ code =>
    rw [code] at outside
    cases outside
  | shift _ code =>
    rw [code] at outside
    cases outside
  | outside blank _ spaced text =>
    obtain ⟨blank', spaced', -⟩ := refits.blank t blank spaced
    have some : (f t).text ≠ [] := by
      intro none
      simp [Spaced, none] at spaced'
    have still : (m.after t).inCode = false := by
      rw [Mode.after_whitespace blank, outside]
      rfl
    exact .outside blank' outside spaced' (before _ (.inr spaced') some still text)
  | lexeme seen other some solid ok =>
    rw [refits.seen t seen]
    refine .lexeme seen other some solid ?_
    have ok := cut?_outside outside ok
    rw [Mode.cut?, if_neg (by simp [outside])]
    have kinds := cutInline_kind (x := t.text ++ (texts ts ++ r))
    rw [ok] at kinds
    rcases kinds with kind | kind
    · have kind : t.kind = .openTag := kind
      rw [kind] at ok ⊢
      obtain ⟨tag, none⟩ := cutInline_tag.mp ok
      rw [cutInline_tag.mpr ⟨(openTagLength_tag some tag).1, none⟩]
    · have kind : t.kind = .inlineText := kind
      rw [kind] at ok ⊢
      have still : (m.after t).inCode = false := by
        simp [Mode.after, Mode.kindOf, seen, kind, inCodeAfter, outside]
      rw [before _ (.inl rfl) some still ok]

theorem Legible.map (legible : Legible limits m ts r) (calm : Inert r')
    (code : (m.afterAll ts).inCode = true)
    (last : ∀ t ∈ ts.getLast?, isLineComment t = true → Comment.Ends r → Comment.Ends r') :
    Legible limits m (ts.map f) r' := by
  induction ts generalizing m with
  | nil => trivial
  | cons t ts ih =>
    obtain ⟨reads, rest⟩ := legible
    have rest' := ih rest code fun u member => last u (by
      rw [List.getLast?_cons, Option.mem_def.mp member]
      rfl)
    refine ⟨?_, by rwa [reads.after_map refits]⟩
    cases inCode : m.inCode with
    | false => exact reads.follow_outside refits inCode rest code
    | true =>
      cases blank : t.isWhitespace with
      | true =>
        obtain ⟨blank', spaced, -⟩ := refits.blank t blank (reads.spaced blank)
        exact .space blank' inCode spaced
      | false =>
        rw [refits.seen t blank]
        obtain ⟨y, a, b, first, second, still⟩ := rest.alike refits calm
        rw [first] at reads
        rw [second]
        refine reads.follow inCode still fun comment => ?_
        rw [← first, ← second]
        cases ts with
        | nil => exact last t rfl comment
        | cons u us =>
          have after : (m.after t).inCode = true := by
            have kind : t.kind = .comment := beq_iff_eq.mp (Bool.and_eq_true_iff.mp comment).1
            simp [Mode.after, Mode.kindOf, blank, kind, inCodeAfter, inCode]
          rw [Token.texts_cons, List.append_assoc, List.map_cons, Token.texts_cons, List.append_assoc]
          exact rest.1.ends_map refits after

end Map

/-- Tokens are put between others, where code is. -/
theorem Legible.insert {new : List Token} (legible : Legible limits m (ts ++ us) r)
    (code : (m.afterAll ts).inCode = true) (inside : ∀ r, Legible limits (m.afterAll ts) new r)
    (calm : Inert (texts new ++ (texts us ++ r)))
    (last : ∀ t ∈ ts.getLast?, isLineComment t = true → Comment.Ends (texts us ++ r) →
      Comment.Ends (texts new ++ (texts us ++ r)))
    (behind : Legible limits ((m.afterAll ts).afterAll new) us r) :
    Legible limits m (ts ++ (new ++ us)) r := by
  obtain ⟨front, -⟩ := legible_append.mp legible
  have kept := front.map refits_id calm code last
  rw [List.map_id] at kept
  rw [legible_append, Token.texts_append, List.append_assoc, legible_append]
  exact ⟨kept, inside _, behind⟩

/-- Tokens are taken out between others. -/
theorem Legible.delete {old : List Token} (legible : Legible limits m (ts ++ (old ++ us)) r)
    (code : (m.afterAll ts).inCode = true) (calm : Inert (texts us ++ r))
    (last : ∀ t ∈ ts.getLast?, isLineComment t = false)
    (behind : Legible limits (m.afterAll ts) us r) : Legible limits m (ts ++ us) r := by
  obtain ⟨front, -⟩ := legible_append.mp legible
  have kept := front.map refits_id calm code fun t member comment => by
    rw [last t member] at comment
    cases comment
  rw [List.map_id] at kept
  exact legible_append.mpr ⟨kept, behind⟩

end Lexer

end Restyle
