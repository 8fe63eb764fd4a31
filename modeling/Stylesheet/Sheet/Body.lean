import Stylesheet.Declaration
import Stylesheet.Value.Reader
/-!
Reading the declarations between two braces, one token at a time. `Body` is how far the reading has
come; `Body.step` takes a token in and says what is wrong, if anything. A fault ends at most the
declaration it is in: reading goes on behind the next semicolon or braced block.
-/

namespace Stylesheet

/-- Splits `!important` off the end of a value, in any case and with any white space in it. -/
def splitImportant (tokens : List Placed) : Bool × List Placed :=
  match tokens.reverse.dropWhile (·.token.isWhitespace) with
  | last :: before =>
    match last.token, before.dropWhile (·.token.isWhitespace) with
    | .identifier word, bang :: value =>
      if Text.sameWord word "important" && bang.token = .delimiter '!' then (true, value.reverse)
      else (false, tokens)
    | _, _ => (false, tokens)
  | [] => (false, tokens)

/-- A property name as it is kept: in small letters, unless two hyphens make it a custom one. -/
def propertyName (name : String) : String :=
  if ['-', '-'].isPrefixOf name.toList then name else Text.lower name

/-- The declaration of a name and the tokens behind its colon, which end at `finish`. -/
def Declaration.ofTokens (name : String) (position : Position) (tokens : List Placed)
    (finish : Position) : Except Diagnostic Declaration :=
  let (important, tokens) := splitImportant tokens
  if tokens.all (·.token.isWhitespace) then .error (.atToken (.noValue name) finish)
  else (Value.ofTokens tokens finish).map fun value => { name, value, important, position }

/-- Where in a row of declarations the reading is. -/
inductive Clause where
  | between
  /-- Behind a property name, in front of its colon. -/
  | afterName (name : String) (position : Position)
  /-- Behind the colon. A value is damaged if one of its tokens was malformed. -/
  | value (name : String) (position : Position) (tokens : List Placed) (damaged : Bool)
  /-- In the rest of a declaration that is not kept. -/
  | skipping
  /-- In a braced block that is not kept, and in so many more. -/
  | skippingBlock (depth : Nat)

/-- The declarations read so far, and what is being read. -/
structure Body where
  done : List Declaration := []
  clause : Clause := .between

namespace Body

/-- What a token leads to: the next state, whether the body ended in front of or with the token,
and what was wrong. -/
structure Outcome where
  body : Body
  closed : Bool
  faults : List Diagnostic

def goOn (b : Body) (clause : Clause) (faults : List Diagnostic) : Outcome :=
  ⟨{ b with clause }, false, faults⟩

/-- Passes a token that is not kept. A semicolon or a whole braced block ends what is skipped. -/
def skip (b : Body) (t : Token) (faults : List Diagnostic) : Outcome :=
  match t with
  | .semicolon => b.goOn .between faults
  | .openBrace => b.goOn (.skippingBlock 0) faults
  | .closeBrace => ⟨{ b with clause := .between }, true, faults⟩
  | _ => b.goOn .skipping faults

/-- Ends a value in front of `finish`. A damaged one was reported where it was damaged. -/
def endValue (b : Body) (name : String) (position : Position) (tokens : List Placed)
    (damaged : Bool) (finish : Position) : Body × List Diagnostic :=
  if damaged then ({ b with clause := .between }, [])
  else
    match Declaration.ofTokens name position tokens finish with
    | .ok d => (⟨b.done ++ [d], .between⟩, [])
    | .error e => ({ b with clause := .between }, [e])

def step (b : Body) (t : Placed) : Outcome :=
  match b.clause with
  | .between =>
    match t.token with
    | .whitespace | .semicolon => b.goOn .between []
    | .closeBrace => ⟨b, true, []⟩
    | .identifier name => b.goOn (.afterName (propertyName name) t.position) []
    | other => b.skip other [Diagnostic.atToken (.expectedName other) t.position]
  | .afterName name position =>
    match t.token with
    | .whitespace => b.goOn b.clause []
    | .colon => b.goOn (.value name position [] false) []
    | other => b.skip other [Diagnostic.atToken (.expectedColon name) t.position]
  | .value name position tokens damaged =>
    match t.token with
    | .semicolon =>
      let (b, faults) := b.endValue name position tokens damaged t.position
      ⟨b, false, faults⟩
    | .closeBrace =>
      let (b, faults) := b.endValue name position tokens damaged t.position
      ⟨b, true, faults⟩
    | .openBrace => b.skip .openBrace [.atToken (.braceInValue name) t.position]
    | _ => b.goOn (.value name position (tokens ++ [t]) damaged) []
  | .skipping => b.skip t.token []
  | .skippingBlock depth =>
    match t.token with
    | .openBrace => b.goOn (.skippingBlock (depth + 1)) []
    | .closeBrace => b.goOn (if depth = 0 then .between else .skippingBlock (depth - 1)) []
    | _ => b.goOn b.clause []

/-- Passes a malformed token, which damages the value that it is in. -/
def damage (b : Body) : Body :=
  match b.clause with
  | .value name position tokens _ => { b with clause := .value name position tokens true }
  | _ => b

/-- Ends the body where the text does. What was read is kept, but the brace is missing. -/
def endOfText (b : Body) (finish : Position) : List Declaration × List Diagnostic :=
  let (b, faults) := match b.clause with
    | .afterName name _ => (b, [Diagnostic.atToken (.expectedColon name) finish])
    | .value name position tokens damaged => b.endValue name position tokens damaged finish
    | _ => (b, [])
  (b.done, faults ++ [.atToken .unterminatedBlock finish])

end Body
end Stylesheet
