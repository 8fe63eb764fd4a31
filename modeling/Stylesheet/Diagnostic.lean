import Stylesheet.Selector
import Stylesheet.Token.Basic
/-!
What can be wrong with a style sheet. A diagnostic is a cause and a position; `message` is the one
place for its wording. An error is a diagnostic that ended a reading, a refused selector, or bytes
that are no text.
-/

namespace Stylesheet

/-- What is wrong with a token. -/
inductive LexicalFault where
  | unterminatedComment
  | unterminatedString
  | unterminatedUrl
  | malformedUrl
  | invalidEscape
  | invalidEscapeInUrl
  | escapeAtEnd
  | notAscii (c : Char)
  | invalidNumber (written : String)
  | numberOutOfRange (written : String)
  | other (message : String)
deriving DecidableEq

def LexicalFault.message : LexicalFault → String
  | unterminatedComment => "unterminated comment"
  | unterminatedString => "unterminated string"
  | unterminatedUrl => "unterminated url"
  | malformedUrl => "malformed url"
  | invalidEscape => "invalid escape"
  | invalidEscapeInUrl => "invalid escape in url"
  | escapeAtEnd => "invalid escape at end of input"
  | notAscii c => s!"unexpected non-ASCII character '{c}'"
  | invalidNumber written => s!"invalid number '{written}'"
  | numberOutOfRange written => s!"number '{written}' is out of range"
  | other message => message

/-- What is wrong with the order of tokens. -/
inductive SyntaxFault where
  | unmatchedBrace
  | unexpectedSemicolon
  | unterminatedBlock
  | expectedBlock (selector : String)
  | invalidSelector (refusal : Selector.Refusal)
  | expectedName (found : Token)
  | expectedColon (name : String)
  | braceInValue (name : String)
  | noValue (name : String)
  | unexpectedInValue (found : Token)
  | unclosedInValue (opener : Token)
  | emptyValue
  | emptyBefore (separator : Token)
  | emptyGroup
  | expectedOneBlock
  | other (message : String)
deriving DecidableEq

def SyntaxFault.message : SyntaxFault → String
  | unmatchedBrace => "unmatched '\x7d'"
  | unexpectedSemicolon => "unexpected ';'"
  | unterminatedBlock => "unterminated block: expected '\x7d'"
  | expectedBlock selector => "expected '\x7b' after selector '" ++ selector ++ "'"
  | invalidSelector refusal => refusal.message
  | expectedName found => s!"expected property name, found '{found.text}'"
  | expectedColon name => s!"expected ':' after property name '{name}'"
  | braceInValue name => "unexpected '\x7b' in value of '" ++ name ++ "'"
  | noValue name => s!"empty value for property '{name}'"
  | unexpectedInValue found => s!"unexpected '{found.text}' in value"
  | unclosedInValue opener => s!"unclosed '{opener.text}' in value"
  | emptyValue => "empty value"
  | emptyBefore separator => s!"empty value before '{separator.text}'"
  | emptyGroup => "empty value group"
  | expectedOneBlock => "expected exactly one declaration block"
  | other message => message

inductive Fault where
  | lexical (fault : LexicalFault)
  | syntactic (fault : SyntaxFault)
deriving DecidableEq

namespace Fault

def message : Fault → String
  | lexical fault => fault.message
  | syntactic fault => fault.message

/-- The stage of reading that found the fault, as diagnostics name it. -/
def stage : Fault → String
  | lexical _ => "lex"
  | syntactic _ => "syntax"

end Fault

/-- A fault and where it is. -/
structure Diagnostic where
  fault : Fault
  position : Position
deriving DecidableEq

namespace Diagnostic

def atToken (fault : SyntaxFault) (position : Position) : Diagnostic :=
  ⟨.syntactic fault, position⟩

def message (d : Diagnostic) : String :=
  d.fault.message

/-- The diagnostic in one line, the position in short form. -/
def summary (d : Diagnostic) : String :=
  s!"CSS {d.fault.stage} error at {d.position.line}:{d.position.column}: {d.message}"

end Diagnostic

inductive Error where
  | diagnostic (d : Diagnostic)
  | selector (refusal : Selector.Refusal)
  | notUtf8
deriving DecidableEq

namespace Error

def message : Error → String
  | diagnostic d =>
    s!"CSS {d.fault.stage} error at line {d.position.line}, column {d.position.column}: {d.message}"
  | selector refusal => refusal.message
  | notUtf8 => "stream did not contain valid UTF-8"

/-- Where in the text the error is, if it is a diagnostic. -/
def position? : Error → Option Position
  | diagnostic d => some d.position
  | _ => none

end Error
end Stylesheet
