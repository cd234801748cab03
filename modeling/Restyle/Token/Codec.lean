import Restyle.Data.Record
import Restyle.Token

/-!
# Tokens as data

Kinds are spelled with capitals and without underscores here. Data says what a token is: reading it
does not classify the text anew.
-/

namespace Restyle

namespace TokenKind

def tag : TokenKind → String
  | openTag => "OpenTag"
  | inlineText => "InlineText"
  | keyword => "Keyword"
  | identifier => "Identifier"
  | variableName => "Variable"
  | whitespace => "Whitespace"
  | punctuation => "Punctuation"
  | operator => "Operator"
  | comment => "Comment"
  | docComment => "DocComment"
  | stringLiteral => "StringLiteral"
  | numberLiteral => "NumberLiteral"
  | unclassified => "Unclassified"

def toData (k : TokenKind) : Data := .string k.tag

def ofData? (d : Data) : Option TokenKind := do
  let name ← Data.Dialect.json.name? d
  all.find? (·.tag == name)

end TokenKind

/-- A kind and a text as data, the kind under a given name. -/
def kindAndText (kindName : String) (kind : TokenKind) (text : Text) : Data :=
  .table [(kindName, kind.toData), ("text", .string (String.ofList text))]

def kindAndText? (kindName : String) (d : Data) : Option (TokenKind × Text) := do
  match ← Data.Dialect.json.record? [kindName, "text"] d with
  | [some kind, some text] => return (← TokenKind.ofData? kind, (← text.string?).toList)
  | _ => none

namespace Lexeme

def toData (l : Lexeme) : Data := kindAndText "kind_hint" l.hint l.text

def ofData? (d : Data) : Option Lexeme :=
  (kindAndText? "kind_hint" d).map fun (hint, text) => { hint, text }

end Lexeme

namespace Token

def toData (t : Token) : Data := kindAndText "kind" t.kind t.text

def ofData? (d : Data) : Option Token :=
  (kindAndText? "kind" d).map fun (kind, text) => { kind, text }

end Token

end Restyle
