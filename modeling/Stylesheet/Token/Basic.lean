import Stylesheet.Number.Double
import Stylesheet.Text.Escaped
import Stylesheet.Text.Position
/-!
Tokens: what the lexer makes of style sheet text. `Token.text` writes one so that it reads back as
itself.
-/

namespace Stylesheet

inductive Token where
  | identifier (name : String)
  /-- An identifier directly in front of `(`, which belongs to the token. -/
  | function (name : String)
  | atKeyword (name : String)
  /-- A `#` and a name: a color or the identity of an element. -/
  | hash (name : String)
  /-- A finite number, its unit if it has one, `%` included, and the number as written. -/
  | number (value : Double) (unit : Option String) (written : String)
  | string (content : String)
  | url (target : String)
  | whitespace
  | colon
  | semicolon
  | comma
  | slash
  | openBrace
  | closeBrace
  | openParen
  | closeParen
  /-- Any other character that stands for itself. -/
  | delimiter (c : Char)
deriving DecidableEq

namespace Token

def isWhitespace : Token → Bool
  | whitespace => true
  | _ => false

def text : Token → String
  | identifier name => Text.Escaped.identifier name
  | function name => Text.Escaped.identifier name ++ "("
  | atKeyword name => "@" ++ Text.Escaped.identifier name
  | hash name => "#" ++ Text.Escaped.name name
  | number _ unit written => written ++ unit.getD ""
  | string content => Text.Escaped.quoted content
  | url target => "url(" ++ Text.Escaped.quoted target ++ ")"
  | whitespace => " "
  | colon => ":"
  | semicolon => ";"
  | comma => ","
  | slash => "/"
  | openBrace => "\x7b"
  | closeBrace => "\x7d"
  | openParen => "("
  | closeParen => ")"
  | delimiter c => c.toString

end Token

/-- A token and the position of its first character. -/
structure Placed where
  token : Token
  position : Position
deriving DecidableEq

end Stylesheet
