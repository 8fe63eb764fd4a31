import Stylesheet.Token.Lexer
import Stylesheet.Value.Basic
/-!
Values from tokens. The tokens are nested by their parentheses first. Then each becomes an item, a
function taking its arguments in, and separators group the items: commas bind loosest, `/` binds
tightest, and two values side by side are two words. White space separates words, but they are
words without it too, so it is dropped.
-/

namespace Stylesheet

namespace Token

/-- Whether a closing parenthesis is needed behind the token. -/
def opensParen : Token → Bool
  | function _ | openParen => true
  | _ => false

end Token

namespace Value

/-- A token run nested by its parentheses. -/
inductive Nested where
  | leaf (token : Placed)
  /-- What stands between an opening token and its closing parenthesis. -/
  | group (opener : Placed) (inner : List Nested) (closer : Position)

namespace Nested

/-- Nests a run of tokens. `stack` holds the open tokens, innermost first, each with what is in
front of it on its level, and `done` what is behind the innermost. A token that is never closed
stays a leaf, and what follows the outermost such is dropped. -/
def ofRun :
    (stack : List (Placed × List Nested)) → (done : List Nested) → List Placed → List Nested
  | stack, done, [] =>
    match stack.getLast? with
    | some (opener, before) => before ++ [leaf opener]
    | none => done
  | stack, done, t :: ts =>
    if t.token.opensParen then ofRun ((t, done) :: stack) [] ts
    else
      match t.token, stack with
      | .closeParen, (opener, before) :: stack =>
        ofRun stack (before ++ [group opener done t.position]) ts
      | _, stack => ofRun stack (done ++ [leaf t]) ts

def isWhitespace : Nested → Bool
  | leaf t => t.token.isWhitespace
  | group .. => false

end Nested

/-- What a group of words is made of. -/
inductive Part where
  | value (v : Value)
  | slash (position : Position)

inductive Item where
  | part (p : Part)
  | comma (position : Position)

/-- A keyword for `#` and a name, or the color it is. -/
def ofHash (name : String) : Value :=
  (hex? name).getD (keyword ("#" ++ name))

/-- The item of a token by itself; white space yields none. -/
def leafItem (t : Placed) : Except Diagnostic (Option Item) :=
  let value (v : Value) : Except Diagnostic (Option Item) := .ok (some (.part (.value v)))
  match t.token with
  | .whitespace => .ok none
  | .comma => .ok (some (.comma t.position))
  | .slash => .ok (some (.part (.slash t.position)))
  | .number x unit _ => value (size (.ofParts (.finite x) unit))
  | .identifier word => value (keyword word)
  | .hash name => value (ofHash name)
  | .string content => value (string content)
  | .url target => value (url target)
  | .colon => value (keyword ":")
  | .delimiter c => value (keyword c.toString)
  | .function _ | .openParen => .error (.atToken (.unclosedInValue t.token) t.position)
  | .atKeyword _ | .semicolon | .openBrace | .closeBrace | .closeParen =>
    .error (.atToken (.unexpectedInValue t.token) t.position)

/-- The function with this opening token. -/
def call (opener : Token) (arguments : Option Value) : Value :=
  let name := match opener with
    | .function name => name
    | _ => ""
  function (if isColorFunction name then .color else .plain) name arguments

/-- Divides items at the commas. No part may be empty; `last` is where the last comma is, or the
end of the run, and `part` holds the items since. -/
def splitAtCommas (last : Position) (part : List Part) :
    List Item → Except Diagnostic (List (List Part))
  | [] => if part.isEmpty then .error (.atToken .emptyGroup last) else .ok [part]
  | .comma p :: rest =>
    if part.isEmpty then .error (.atToken (.emptyBefore .comma) p)
    else (splitAtCommas p [] rest).map (part :: ·)
  | .part p :: rest => splitAtCommas last (part ++ [p]) rest

/-- The words of a group, behind a word that is not yet known to be whole. A slash needs a value
on both sides. -/
def words : (current : Option Value) → List Part → Except Diagnostic (List Value)
  | current, [] => .ok current.toList
  | current, .value v :: rest => (words (some v) rest).map (current.toList ++ ·)
  | none, .slash p :: _ => .error (.atToken (.emptyBefore .slash) p)
  | some w, .slash _ :: .value v :: rest => words (some (pair w v)) rest
  | some _, .slash _ :: .slash p :: _ => .error (.atToken (.emptyBefore .slash) p)
  | some _, [.slash p] => .error (.atToken .emptyGroup p)

/-- Groups the items of a run that ends at `finish`. -/
def ofItems (items : List Item) (finish : Position) : Except Diagnostic Value := do
  let parts ← splitAtCommas finish [] items
  let groups ← parts.mapM fun part => return spaceList (← words none part)
  return commaList groups

mutual

/-- The item of a leaf or a group. Parentheses with nothing but white space have no arguments. -/
def nestedItem : Nested → Except Diagnostic (Option Item)
  | .leaf t => leafItem t
  | .group opener inner closer => do
    let items ← nestedItems inner
    let arguments ←
      if inner.all Nested.isWhitespace then pure none else some <$> ofItems items closer
    return some (.part (.value (call opener.token arguments)))

def nestedItems : List Nested → Except Diagnostic (List Item)
  | [] => return []
  | n :: ns => do
    let item ← nestedItem n
    let items ← nestedItems ns
    return item.toList ++ items

end

/-- Reads a run of tokens that ends at `finish`. -/
def ofTokens (tokens : List Placed) (finish : Position) : Except Diagnostic Value :=
  if tokens.isEmpty then .error (.atToken .emptyValue finish)
  else do
    let items ← nestedItems (Nested.ofRun [] [] tokens)
    ofItems items finish

/-- Reads a text. A fault of the lexer comes before all others. -/
def ofText (text : String) : Except Diagnostic Value := do
  let (results, finish) := (Cursor.ofText text).lex true
  let tokens ← results.mapM id
  ofTokens tokens finish

end Value
end Stylesheet
