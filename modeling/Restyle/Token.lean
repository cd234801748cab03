import Restyle.Text

/-!
# Tokens

A token is a piece of source text with a kind. The lexer's kind is only a hint: text made of
whitespace is a whitespace token whatever the lexer called it.
-/

namespace Restyle

inductive TokenKind where
  /-- An opening tag, or the closing tag `?>`. -/
  | openTag
  /-- Text outside the code sections. -/
  | inlineText
  | keyword
  | identifier
  /-- A name after a dollar sign. -/
  | variableName
  | whitespace
  /-- A bracket, `#[`, a comma or a semicolon. -/
  | punctuation
  | operator
  | comment
  | docComment
  | stringLiteral
  | numberLiteral
  | unclassified
  deriving DecidableEq, Repr

namespace TokenKind

def all : List TokenKind :=
  [openTag, inlineText, keyword, identifier, variableName, whitespace, punctuation, operator,
    comment, docComment, stringLiteral, numberLiteral, unclassified]

def name : TokenKind → String
  | openTag => "open_tag"
  | inlineText => "inline_text"
  | keyword => "keyword"
  | identifier => "identifier"
  | variableName => "variable"
  | whitespace => "whitespace"
  | punctuation => "punctuation"
  | operator => "operator"
  | comment => "comment"
  | docComment => "doc_comment"
  | stringLiteral => "string_literal"
  | numberLiteral => "number_literal"
  | unclassified => "unclassified"

def ofName? (s : String) : Option TokenKind := all.find? (·.name == s)

end TokenKind

/-- A piece of source text as the lexer cuts it, with the lexer's idea of its kind. -/
structure Lexeme where
  hint : TokenKind
  text : Text
  deriving DecidableEq, Repr

structure Token where
  kind : TokenKind
  text : Text
  deriving DecidableEq, Repr

namespace Token

/-- Text made of whitespace characters, and of at least one. -/
def isSpaceText (t : Text) : Bool := !t.isEmpty && t.all Text.isSpace

/-- The token of a text, of the given kind unless the text is whitespace. -/
def classify (kind : TokenKind) (text : Text) : Token :=
  { kind := if isSpaceText text then .whitespace else kind, text }

def isWhitespace (t : Token) : Bool := t.kind == .whitespace

def isComment (t : Token) : Bool := t.kind == .comment || t.kind == .docComment

/-- Neither whitespace nor a comment. -/
def isSignificant (t : Token) : Bool := !t.isWhitespace && !t.isComment

def hasLineFeed (t : Token) : Bool := t.text.hasLineFeed

/-- Is it this keyword, in any case of its letters? -/
def isKeyword (t : Token) (word : String) : Bool :=
  t.kind == .keyword && t.text.sameIgnoringCase word.toList

def isIdentifier (t : Token) (name : String) : Bool :=
  t.kind == .identifier && t.text == name.toList

def isOperator (t : Token) (symbol : String) : Bool :=
  t.kind == .operator && t.text == symbol.toList

def isPunctuation (t : Token) (mark : Char) : Bool := t.kind == .punctuation && t.text == [mark]

/-- `true`, `false` or `null`, in any case of its letters. -/
def isConstant (t : Token) : Bool :=
  (t.kind == .identifier || t.kind == .keyword) &&
    ["true", "false", "null"].any (fun name => t.text.sameIgnoringCase name.toList)

/-- The bracket that closes the group this token opens. `#[` opens an attribute. -/
def closer? (t : Token) : Option Char :=
  if t.kind == .punctuation then
    match t.text with
    | ['('] => some ')'
    | ['['] => some ']'
    | ['{'] => some '}'
    | ['#', '['] => some ']'
    | _ => none
  else none

def opensAttribute (t : Token) : Bool := t.kind == .punctuation && t.text == ['#', '[']

def closesGroup (t : Token) : Bool :=
  t.isPunctuation ')' || t.isPunctuation ']' || t.isPunctuation '}'

end Token

def Lexeme.toToken (l : Lexeme) : Token := Token.classify l.hint l.text

end Restyle
