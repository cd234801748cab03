import Restyle.Lexer.Comment
import Restyle.Lexer.Error
import Restyle.Lexer.Heredoc
import Restyle.Lexer.Number
import Restyle.Lexer.Quoted
import Restyle.Lexer.Symbol
import Restyle.Limits
import Restyle.Token

/-!
# Lexing

`Scan.ofSource` cuts a source into lexemes, one after another, until the source is used up or a
lexeme cannot be cut. What it returns holds the lexemes accepted up to there, so that a failed scan
still says how far it came.
-/

namespace Restyle.Lexer

/-- The kind and the length of a lexeme, or why there is none. -/
abbrev Cut := Except LexError (TokenKind × Nat)

/-- A string literal of `n` characters of `t`, if it is not too large. -/
def cutString (limits : Limits) (t : Text) (n : Nat) : Cut :=
  let size := Text.byteSize (t.take n)
  if size > limits.stringBytes then .error (.stringLimit size limits.stringBytes)
  else .ok (.stringLiteral, n)

/-- A comment of `n` characters of `t`, if it is not too long. -/
def cutComment (limits : Limits) (kind : TokenKind) (t : Text) (n : Nat) : Cut :=
  let length := Text.byteSize (t.take n)
  if length > limits.commentBytes then .error (.commentLimit length limits.commentBytes)
  else .ok (kind, n)

def cutQuoted (limits : Limits) (line : Nat) (quote : Char) (t : Text) : Cut :=
  match Quoted.length? quote t with
  | some n => cutString limits t n
  | none => .error (.openString line)

def cutBlockComment (limits : Limits) (line : Nat) (t : Text) : Cut :=
  match Comment.blockLength? t with
  | some n => cutComment limits (if Comment.isDoc t then .docComment else .comment) t n
  | none => .error (.openComment line)

/-- `<<<` without the rest of a heredoc header is the operator `<<` and what comes after it. -/
def cutHeredoc (limits : Limits) (line : Nat) (t : Text) : Cut :=
  match Heredoc.header? t with
  | none => .ok (.operator, 2)
  | some header =>
    match Heredoc.length? header t with
    | some n => cutString limits t n
    | none => .error (.openString line)

/-- A word. After `->` or `?->` no word is reserved. -/
def cutWord (afterAccess : Bool) (t : Text) : TokenKind × Nat :=
  let n := wordLength t
  (if !afterAccess && isKeyword (t.take n) then .keyword else .identifier, n)

/-- The lexeme that starts `t` inside a code section. -/
def cutCode (limits : Limits) (line : Nat) (afterAccess : Bool) (t : Text) : Cut :=
  match t with
  | [] => .ok (.unclassified, 0)
  | c :: rest =>
    if Text.isSpace c then .ok (.whitespace, (t.takeWhile Text.isSpace).length)
    else if c == '$' && startsWord rest then .ok (.variableName, wordLength rest + 1)
    else if isWordStart c then .ok (cutWord afterAccess t)
    else if c.isDigit || (c == '.' && rest.head?.any Char.isDigit) then
      .ok (.numberLiteral, Number.length t)
    else if c == '\'' || c == '"' then cutQuoted limits line c t
    else if "#[".toList.isPrefixOf t then .ok (.punctuation, 2)
    else if c == '#' || "//".toList.isPrefixOf t then
      cutComment limits .comment t (Comment.lineLength t)
    else if "/*".toList.isPrefixOf t then cutBlockComment limits line t
    else if "?>".toList.isPrefixOf t then .ok (.openTag, 2)
    else if "<<<".toList.isPrefixOf t then cutHeredoc limits line t
    else if punctuation.contains c then .ok (.punctuation, 1)
    else if operatorLength t != 0 then .ok (.operator, operatorLength t)
    else .ok (.unclassified, 1)

/-- The lexeme that starts `t` outside the code sections. -/
def cutInline (t : Text) : TokenKind × Nat :=
  if openTagLength t != 0 then (.openTag, openTagLength t) else (.inlineText, inlineLength t)

/-- Whitespace, comments and tags leave open whether a word may be reserved. -/
def accessAfter (afterAccess : Bool) (kind : TokenKind) (text : Text) : Bool :=
  match kind with
  | .openTag | .whitespace | .comment | .docComment => afterAccess
  | .operator => text == "->".toList || text == "?->".toList
  | _ => false

/-- A tag opens or closes a code section. -/
def inCodeAfter (inCode : Bool) (kind : TokenKind) (text : Text) : Bool :=
  match kind with
  | .openTag => "<?".toList.isPrefixOf text
  | _ => inCode

end Lexer

/-- How far lexing has come. -/
structure Scan where
  /-- The lexemes accepted so far. -/
  lexemes : Array Lexeme := #[]
  /-- The line the rest of the source starts on. -/
  line : Nat := 1
  inCode : Bool := false
  /-- The last lexeme that counts is `->` or `?->`. -/
  afterAccess : Bool := false
  /-- Why lexing stopped before the end of the source. -/
  failure : Option LexError := none
  deriving DecidableEq, Repr

namespace Scan
open Lexer

/-- The kind and the length of the next lexeme. -/
def cut (limits : Limits) (s : Scan) (t : Text) : Cut :=
  if s.inCode then cutCode limits s.line s.afterAccess t else .ok (cutInline t)

/-- Takes a lexeme that was cut from the rest of the source. -/
def accept (s : Scan) (kind : TokenKind) (text : Text) : Scan :=
  let inCode := inCodeAfter s.inCode kind text
  let afterAccess := accessAfter s.afterAccess kind text
  { s with
    lexemes := s.lexemes.push ⟨kind, text⟩
    line := s.line + Text.lineFeeds text
    inCode, afterAccess }

/-- Goes on with the rest `t` of the source, for at most `fuel` lexemes. -/
def run (limits : Limits) : Nat → Text → Scan → Scan
  | _, [], s => s
  | 0, _, s => s
  | fuel + 1, c :: rest, s =>
    match s.cut limits (c :: rest) with
    | .error e => { s with failure := some e }
    | .ok (kind, n) =>
      if s.lexemes.size ≥ limits.tokens then
        { s with failure := some (.tokenLimit (s.lexemes.size + 1) limits.tokens) }
      else
        let (text, after) := (c :: rest).splitAt n
        run limits fuel after (s.accept kind text)

/-- Lexes a source. A lexeme takes at least one character, so the fuel is enough. -/
def ofSource (limits : Limits) (source : Text) : Scan := run limits source.length source {}

/-- The lexemes of a source that was lexed to its end, or why it was not. -/
def result (s : Scan) : Except LexError (List Lexeme) :=
  match s.failure with
  | some e => .error e
  | none => .ok s.lexemes.toList

end Scan

end Restyle
