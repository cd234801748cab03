import Restyle.Proofs.Chain.Edits
import Restyle.Proofs.Group.Forest
import Restyle.Rule.ConstructorDefaults

/-!
# The tokens that the rule makes

The brackets of all that the rule puts into a chain fit (`Balanced`), so the new nodes are a forest
(`exists_forest`).
-/

namespace Restyle
variable {c : Chain} {f : Forest} {ids : List NodeId} {ts us : List Token} {t : Token}

inductive Balanced : List Token → Prop
  | nil : Balanced []
  | plain (t : Token) (rest : List Token) (opens : t.closer? = none) (closes : t.closesGroup = false) :
    Balanced rest → Balanced (t :: rest)
  | group (o e : Token) (inside rest : List Token) (bracket : Char) (opens : o.closer? = some bracket)
    (closes : e.isPunctuation bracket = true) :
    Balanced inside → Balanced rest → Balanced (o :: (inside ++ e :: rest))

theorem Balanced.append (left : Balanced ts) (right : Balanced us) : Balanced (ts ++ us) := by
  induction left with
  | nil => exact right
  | plain t rest opens closes _ ih => exact .plain t _ opens closes ih
  | group o e inside rest bracket opens closes inner _ _ ih =>
    have whole := Balanced.group o e inside _ bracket opens closes inner ih
    simpa using whole

/-- Nodes whose tokens are balanced are a forest. -/
theorem Balanced.exists_forest (balanced : Balanced ts) (tokens : ids.map c.token? = ts.map some) :
    ∃ f : Forest, f.ids = ids ∧ f.Fits c := by
  induction balanced generalizing ids with
  | nil =>
    obtain rfl : ids = [] := by simpa using tokens
    exact ⟨.nil, rfl, trivial⟩
  | plain t rest opens closes _ ih =>
    obtain ⟨id, ids, rfl, token, tokens⟩ := List.map_eq_cons_iff.mp tokens
    obtain ⟨f, rfl, fits⟩ := ih tokens
    have known := Chain.known_iff_token?.mpr ⟨t, token⟩
    exact ⟨.atom id f, rfl, ⟨known, by simp [Chain.opens, Chain.tokenIs_of_token? token, opens],
      by simp [Chain.closes, Chain.tokenIs_of_token? token, closes]⟩, fits⟩
  | group o e inside rest bracket opens closes _ _ ih ih' =>
    obtain ⟨x, ids, rfl, opener, tokens⟩ := List.map_eq_cons_iff.mp tokens
    rw [List.map_append, List.map_cons] at tokens
    obtain ⟨inner, tail, rfl, within, behind⟩ := List.map_eq_append_iff.mp tokens
    obtain ⟨y, outer, rfl, closer, outside⟩ := List.map_eq_cons_iff.mp behind
    obtain ⟨f, rfl, fits⟩ := ih within
    obtain ⟨g, rfl, fits'⟩ := ih' outside
    refine ⟨.group x f y g, rfl, ⟨bracket, ?_, ?_⟩, fits, fits'⟩
    · rw [opener]
      exact opens
    · rw [Chain.tokenIs_of_token? closer]
      exact closes

/-- The tokens of a forest are balanced. -/
theorem Forest.Fits.balanced (fits : f.Fits c) (tokens : f.ids.map c.token? = ts.map some) :
    Balanced ts := by
  induction f generalizing ts with
  | nil =>
    obtain rfl : ts = [] := by simpa [ids] using tokens.symm
    exact .nil
  | atom id rest ih =>
    obtain ⟨t, ts, rfl, token, tokens⟩ := List.map_eq_cons_iff.mp tokens.symm
    have plain := fits.1.2
    simp only [Chain.opens, Chain.closes, Chain.tokenIs_of_token? token.symm,
      Option.isSome_eq_false_iff, Option.isNone_iff_eq_none] at plain
    exact .plain t ts plain.1 plain.2 (ih fits.2 tokens.symm)
  | group o inside e rest ih ih' =>
    obtain ⟨⟨bracket, opens, closes⟩, fitsInside, fitsRest⟩ := fits
    obtain ⟨x, ts, rfl, opener, tokens⟩ := List.map_eq_cons_iff.mp tokens.symm
    rw [List.map_append] at tokens
    obtain ⟨inner, tail, rfl, within, behind⟩ := List.map_eq_append_iff.mp tokens
    obtain ⟨y, outer, rfl, closer, outside⟩ := List.map_eq_cons_iff.mp behind
    rw [← opener] at opens
    rw [Chain.tokenIs_of_token? closer.symm] at closes
    exact .group x y inner outer bracket opens closes (ih fitsInside within.symm)
      (ih' fitsRest outside.symm)

theorem Balanced.of_kind {rest : List Token} (kind : t.kind ≠ .punctuation) (balanced : Balanced rest) :
    Balanced (t :: rest) :=
  .plain t rest (by simp [Token.closer?, kind]) (by simp [Token.closesGroup, Token.isPunctuation, kind])
    balanced

theorem Token.kind_classify (kind : TokenKind) (text : Text) :
    (Token.classify kind text).kind = kind ∨ (Token.classify kind text).kind = .whitespace := by
  simp only [classify]
  split
  · exact .inr rfl
  · exact .inl rfl

theorem Token.classify_ne {kind other : TokenKind} (text : Text) (different : kind ≠ other)
    (seen : other ≠ .whitespace) : (Token.classify kind text).kind ≠ other := by
  rcases kind_classify kind text with same | same
  · rw [same]
    exact different
  · rw [same]
    exact seen.symm

theorem Token.isComment_classify {kind : TokenKind} (text : Text) (plain : kind ≠ .comment)
    (plain' : kind ≠ .docComment) : (Token.classify kind text).isComment = false := by
  have first := classify_ne text plain (by decide)
  have second := classify_ne text plain' (by decide)
  simp [isComment, first, second]

theorem Token.isWhitespace_classify (text : Text) :
    (Token.classify .whitespace text).isWhitespace = true := by
  rcases kind_classify .whitespace text with same | same <;> simp [isWhitespace, same]

namespace ConstructorDefaults

/-- Only whitespace is indented anew, and it stays whitespace. -/
theorem reindent_cases (source target : Text) (t : Token) : reindent source target t = t ∨
    t.isWhitespace = true ∧ (reindent source target t).isWhitespace = true := by
  simp only [reindent]
  split
  · exact .inl rfl
  · rename_i blank
    simp only [Bool.or_eq_true, Bool.not_eq_true', not_or, Bool.not_eq_false] at blank
    split
    · exact .inl rfl
    · exact .inr ⟨blank.1.1, Token.isWhitespace_classify _⟩

theorem reindent_of_punctuation {source target : Text} (kind : t.kind = .punctuation) :
    reindent source target t = t := by
  rcases reindent_cases source target t with same | ⟨blank, -⟩
  · exact same
  · simp [Token.isWhitespace, kind] at blank

theorem kind_of_closer? {bracket : Char} (opens : t.closer? = some bracket) : t.kind = .punctuation := by
  simp only [Token.closer?] at opens
  split at opens
  · rename_i kind
    exact beq_iff_eq.mp kind
  · simp at opens

theorem balanced_reindent (source target : Text) (balanced : Balanced ts) :
    Balanced (ts.map (reindent source target)) := by
  induction balanced with
  | nil => exact .nil
  | plain t rest opens closes _ ih =>
    rcases reindent_cases source target t with same | ⟨-, blank⟩
    · rw [List.map_cons, same]
      exact .plain t _ opens closes ih
    · refine .of_kind ?_ ih
      rw [beq_iff_eq.mp blank]
      simp
  | group o e inside rest bracket opens closes _ _ ih ih' =>
    have closer : e.kind = .punctuation := by
      simp only [Token.isPunctuation, Bool.and_eq_true, beq_iff_eq] at closes
      exact closes.1
    rw [List.map_cons, List.map_append, List.map_cons, reindent_of_punctuation (kind_of_closer? opens),
      reindent_of_punctuation closer]
    exact .group o e _ _ bracket opens closes ih ih'

/-! ### Statements -/

structure IsStatement (s : List Token) : Prop where
  balanced : Balanced s
  ends : ∃ init, s = init ++ [mark ';']

theorem balanced_semicolon : Balanced [mark ';'] := .plain _ _ (by decide) (by decide) .nil

theorem isStatement_parentCall : IsStatement parentCall where
  balanced := .of_kind (by decide) (.of_kind (by decide) (.of_kind (by decide)
    (.group (mark '(') (mark ')') [] [mark ';'] ')' (by decide) (by decide) .nil balanced_semicolon)))
  ends := ⟨parentCall.dropLast, rfl⟩

theorem assignment_ok {indent : Text} {p : Property} {value : Initializer} {s : List Token}
    (ok : assignment c indent p value = .ok s) : ∃ ids : List NodeId, ∃ ts : List Token, ∃ source,
    c.span value.first value.last = .ok ids ∧ ids.map c.token? = ts.map some ∧
    s = [.classify .variableName "$this".toList, operator "->", identifier p.name, space,
      operator "=", space] ++ ts.map (reindent source indent) ++ [mark ';'] := by
  simp only [assignment, Outcome.bind_ok, Outcome.mapM_ok, Outcome.pure_ok] at ok
  obtain ⟨source, -, ids, span, ts, tokens, rfl⟩ := ok
  refine ⟨ids, ts, source, span, ?_, rfl⟩
  have each : ∀ (ids : List NodeId) (ts : List Token), ids.map c.token = ts.map .ok →
      ids.map c.token? = ts.map some := by
    intro ids
    induction ids with
    | nil =>
      intro ts same
      obtain rfl : ts = [] := by simpa using same.symm
      rfl
    | cons id ids ih =>
      intro ts same
      obtain ⟨t, ts, rfl, token, rest⟩ := List.map_eq_cons_iff.mp same.symm
      rw [List.map_cons, List.map_cons, Chain.token_ok.mp token.symm, ih ts rest.symm]
  exact each ids ts tokens

theorem isStatement_assignment {indent : Text} {p : Property} {value : Initializer} {s : List Token}
    (ok : assignment c indent p value = .ok s) (span : c.span value.first value.last = .ok f.ids)
    (fits : f.Fits c) : IsStatement s := by
  obtain ⟨ids, ts, source, span', tokens, rfl⟩ := assignment_ok ok
  rw [span] at span'
  obtain rfl := Except.ok.inj span'
  refine ⟨?_, _, rfl⟩
  have value := balanced_reindent source indent (fits.balanced tokens)
  have named : (identifier p.name).kind ≠ .punctuation :=
    Token.classify_ne p.name (by decide) (by decide)
  exact .of_kind (by decide) (.of_kind (by decide) (.of_kind named (.of_kind (by decide)
    (.of_kind (by decide) (.of_kind (by decide) (value.append balanced_semicolon))))))

theorem newLine_ne_punctuation (indent : Text) : (newLine indent).kind ≠ .punctuation :=
  Token.classify_ne _ (by decide) (by decide)

theorem newLine_not_comment (indent : Text) : (newLine indent).isComment = false :=
  Token.isComment_classify _ (by decide) (by decide)

theorem block_balanced {indent : Text} {statements : List (List Token)}
    (each : ∀ s ∈ statements, IsStatement s) : Balanced (block indent statements) := by
  induction statements with
  | nil => exact .nil
  | cons s rest ih =>
    have here := (each s List.mem_cons_self).balanced
    have more := ih fun s member => each s (List.mem_cons_of_mem _ member)
    exact .of_kind (newLine_ne_punctuation indent) (here.append more)

theorem block_ends {indent : Text} {statements : List (List Token)} (some : statements ≠ [])
    (each : ∀ s ∈ statements, IsStatement s) : ∃ init, block indent statements = init ++ [mark ';'] := by
  obtain ⟨init, s, rfl⟩ := (List.eq_nil_or_concat statements).resolve_left some
  obtain ⟨body, rfl⟩ := (each s (by simp)).ends
  exact ⟨block indent init ++ newLine indent :: body, by simp [block]⟩

/-! ### Where a class can be in new tokens -/

/-- Every word `class` in the tokens is in a copied value, and a semicolon follows that value. -/
def Traced (copy : List Token → Prop) (tokens : List Token) : Prop :=
  ∀ pre t post, tokens = pre ++ t :: post → t.isKeyword "class" = true →
    ∃ a u v z, copy (u ++ t :: v) ∧ pre = a ++ u ∧ post = v ++ mark ';' :: z

theorem newLine_not_class (indent : Text) : (newLine indent).isKeyword "class" = false := by
  have kind : (newLine indent).kind = .whitespace := beq_iff_eq.mp (Token.isWhitespace_classify _)
  rw [Token.isKeyword, kind]
  rfl

namespace Traced
variable {copy : List Token → Prop}

theorem append (left : Traced copy ts) (right : Traced copy us) : Traced copy (ts ++ us) := by
  intro pre t post split keyword
  have behind : ∀ w, us = w ++ t :: post → pre = ts ++ w →
      ∃ a u v z, copy (u ++ t :: v) ∧ pre = a ++ u ∧ post = v ++ mark ';' :: z := by
    intro w same front
    obtain ⟨a, u, v, z, copied, rfl, rfl⟩ := right w t post same keyword
    exact ⟨ts ++ a, u, v, z, copied, by simp [front], rfl⟩
  rcases List.append_eq_append_iff.mp split with ⟨w, front, same⟩ | ⟨w, same, beyond⟩
  · exact behind w same front
  · cases w with
    | nil => exact behind [] beyond.symm (by simpa using same.symm)
    | cons first w =>
      obtain ⟨rfl, rfl⟩ := List.cons.inj beyond
      obtain ⟨a, u, v, z, copied, rfl, rfl⟩ := left pre t w same keyword
      exact ⟨a, u, v, z ++ us, copied, rfl, by simp⟩

theorem of_plain (plain : ∀ t ∈ ts, t.isKeyword "class" = false) : Traced copy ts := by
  intro pre t post split keyword
  have none := plain t (by simp [split])
  simp [keyword] at none

theorem of_copy (copied : copy ts) : Traced copy (ts ++ [mark ';']) := by
  intro pre t post split keyword
  rcases List.append_eq_append_iff.mp split with ⟨w, -, beyond⟩ | ⟨w, rfl, beyond⟩
  · have plain : (mark ';').isKeyword "class" = false := by decide
    have here : t ∈ [mark ';'] := by simp [beyond]
    rw [List.mem_singleton.mp here, plain] at keyword
    simp at keyword
  · cases w with
    | nil =>
      have plain : (mark ';').isKeyword "class" = false := by decide
      rw [(List.cons.inj beyond).1, plain] at keyword
      simp at keyword
    | cons first w =>
      obtain ⟨rfl, rfl⟩ := List.cons.inj beyond
      exact ⟨[], pre, w, [], copied, rfl, rfl⟩

theorem block {indent : Text} {statements : List (List Token)}
    (each : ∀ s ∈ statements, Traced copy s) :
    Traced copy (ConstructorDefaults.block indent statements) := by
  induction statements with
  | nil => exact of_plain (by simp [ConstructorDefaults.block])
  | cons s rest ih =>
    have here := each s List.mem_cons_self
    have more := ih fun s member => each s (List.mem_cons_of_mem _ member)
    have line : Traced copy [newLine indent] := of_plain (by simp [newLine_not_class])
    exact line.append (here.append more)

end Traced

end ConstructorDefaults

end Restyle
