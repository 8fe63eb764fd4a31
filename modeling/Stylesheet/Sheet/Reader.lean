import Stylesheet.Sheet.Basic
import Stylesheet.Sheet.Body
/-!
Reading a style sheet, one token at a time. `Reader` is how far the reading has come: the at-rules
that are open, and what is being read in the innermost. `Reader.step` takes a token in, and
`Sheet.parse` a whole text. A text with faults is read nevertheless, each fault ending no more than
the statement it is in, unless the settings forbid it; then the first fault is the result.
-/

namespace Stylesheet

/-- What the declarations of a body belong to. -/
inductive Owner where
  | block (selectors : List Selector) (line : Nat)
  | atRule (name arguments : String)

def Owner.node : Owner → List Declaration → Node Declaration
  | block selectors line, rules => .block { selectors, rules, line }
  | atRule name arguments, rules => .atSet name arguments rules

/-- What is being read. A prelude is damaged if one of its tokens was malformed. -/
inductive Focus where
  | between
  | selector (start : Position) (prelude : List Token) (damaged : Bool)
  | atPrelude (name : String) (prelude : List Token) (damaged : Bool)
  | body (owner : Owner) (body : Body)
  /-- In a braced block that is not kept, and in so many more. -/
  | skippingBlock (depth : Nat)

/-- An open at-rule, and the nodes in front of it on its level. -/
structure Frame where
  name : String
  arguments : String
  before : Sheet Declaration

structure Reader where
  /-- The open at-rules, innermost first. -/
  frames : List Frame := []
  /-- The nodes of the innermost level. -/
  nodes : Sheet Declaration := []
  focus : Focus := .between

namespace Reader

/-- The text of a prelude. -/
def preludeText (prelude : List Token) : String :=
  String.join (prelude.map Token.text)

def trimmedText (prelude : List Token) : String :=
  String.ofList (Text.trim (preludeText prelude).toList)

def look (r : Reader) (focus : Focus) : Reader :=
  { r with focus }

def append (r : Reader) (n : Node Declaration) : Reader :=
  { r with nodes := r.nodes ++ [n], focus := .between }

/-- Ends the innermost open at-rule. -/
def close (r : Reader) (frame : Frame) (frames : List Frame) : Reader :=
  ⟨frames, frame.before ++ [.atBlock frame.name frame.arguments r.nodes], .between⟩

/-- A closing brace between nodes. -/
def closeBrace (r : Reader) (position : Position) : Reader × List Diagnostic :=
  match r.frames with
  | frame :: frames => (r.close frame frames, [])
  | [] => (r.look .between, [.atToken .unmatchedBrace position])

/-- The opening brace behind selectors. -/
def openBlock (r : Reader) (start : Position) (prelude : List Token) (damaged : Bool) :
    Reader × List Diagnostic :=
  if damaged then (r.look (.skippingBlock 0), [])
  else
    match Selector.listOfText (preludeText prelude) with
    | .ok selectors => (r.look (.body (.block selectors start.line) {}), [])
    | .error refusal =>
      (r.look (.skippingBlock 0), [.atToken (.invalidSelector refusal) start])

/-- The opening brace of an at-rule. -/
def openAtRule (r : Reader) (name : String) (prelude : List Token) (damaged : Bool) : Reader :=
  if damaged then r.look (.skippingBlock 0)
  else if holdsDeclarations name then
    r.look (.body (.atRule name (trimmedText prelude)) {})
  else ⟨⟨name, trimmedText prelude, r.nodes⟩ :: r.frames, [], .between⟩

/-- The end of an at-rule without braces. -/
def endStatement (r : Reader) (name : String) (prelude : List Token) (damaged : Bool) : Reader :=
  if damaged then r.look .between else r.append (.atStatement name (trimmedText prelude))

/-- A token of the prelude of a block. -/
def selectorStep (r : Reader) (start : Position) (prelude : List Token) (damaged : Bool)
    (t : Placed) : Reader × List Diagnostic :=
  let fault := Diagnostic.atToken (.expectedBlock (trimmedText prelude)) t.position
  match t.token with
  | .openBrace => r.openBlock start prelude damaged
  | .semicolon => (r.look .between, [fault])
  | .closeBrace =>
    let (r, faults) := r.closeBrace t.position
    (r, fault :: faults)
  | token => (r.look (.selector start (prelude ++ [token]) damaged), [])

def step (r : Reader) (t : Placed) : Reader × List Diagnostic :=
  match r.focus with
  | .between =>
    match t.token with
    | .whitespace => (r, [])
    | .closeBrace => r.closeBrace t.position
    | .semicolon => (r, [.atToken .unexpectedSemicolon t.position])
    | .atKeyword name => (r.look (.atPrelude (Text.lower name) [] false), [])
    | _ => r.selectorStep t.position [] false t
  | .selector start prelude damaged => r.selectorStep start prelude damaged t
  | .atPrelude name prelude damaged =>
    match t.token with
    | .openBrace => (r.openAtRule name prelude damaged, [])
    | .semicolon => (r.endStatement name prelude damaged, [])
    | .closeBrace => (r.endStatement name prelude damaged).closeBrace t.position
    | token => (r.look (.atPrelude name (prelude ++ [token]) damaged), [])
  | .body owner body =>
    let outcome := body.step t
    (if outcome.closed then r.append (owner.node outcome.body.done)
      else r.look (.body owner outcome.body), outcome.faults)
  | .skippingBlock depth =>
    match t.token with
    | .openBrace => (r.look (.skippingBlock (depth + 1)), [])
    | .closeBrace => (r.look (if depth = 0 then .between else .skippingBlock (depth - 1)), [])
    | _ => (r, [])

/-- Passes a malformed token, which damages the prelude or the value that it is in. -/
def damage (r : Reader) : Reader :=
  match r.focus with
  | .selector start prelude _ => r.look (.selector start prelude true)
  | .atPrelude name prelude _ => r.look (.atPrelude name prelude true)
  | .body owner body => r.look (.body owner body.damage)
  | .between | .skippingBlock _ => r

def read (r : Reader) : Lexed → Reader × List Diagnostic
  | .ok t => r.step t
  | .error d => (r.damage, [d])

/-- Ends the open at-rules where the text ends. Each lacks its closing brace. -/
def closeAll (finish : Position) :
    List Frame → Sheet Declaration → Sheet Declaration × List Diagnostic
  | [], nodes => (nodes, [])
  | frame :: frames, nodes =>
    let (nodes, faults) :=
      closeAll finish frames (frame.before ++ [.atBlock frame.name frame.arguments nodes])
    (nodes, .atToken .unterminatedBlock finish :: faults)

/-- Ends what is being read where the text ends. -/
def endOfText (r : Reader) (finish : Position) : Sheet Declaration × List Diagnostic :=
  let (r, faults) := match r.focus with
    | .selector _ prelude _ =>
      (r, [Diagnostic.atToken (.expectedBlock (trimmedText prelude)) finish])
    | .atPrelude name prelude damaged => (r.endStatement name prelude damaged, [])
    | .body owner body =>
      let (rules, faults) := body.endOfText finish
      (r.append (owner.node rules), faults)
    | .between | .skippingBlock _ => (r, [])
  let (nodes, more) := closeAll finish r.frames r.nodes
  (nodes, faults ++ more)

end Reader

/-- How to read a style sheet. -/
structure Settings where
  /-- Whether reading goes on behind a fault. -/
  lenient : Bool := true
  /-- Whether non-ASCII characters may stand in names. -/
  multibyte : Bool := true

namespace Settings

/-- Adds faults to those found before, or ends with the first of them. -/
def report (settings : Settings) (warnings : List Diagnostic) :
    List Diagnostic → Except Diagnostic (List Diagnostic)
  | [] => .ok warnings
  | fault :: faults =>
    if settings.lenient then .ok (warnings ++ fault :: faults) else .error fault

end Settings

/-- Reads on through the results of the lexer. -/
def Reader.run (settings : Settings) (r : Reader) (warnings : List Diagnostic) :
    List Lexed → Except Diagnostic (Reader × List Diagnostic)
  | [] => .ok (r, warnings)
  | result :: results =>
    let (r, faults) := r.read result
    match settings.report warnings faults with
    | .ok warnings => r.run settings warnings results
    | .error fault => .error fault

/-- A style sheet, and the faults in its text. -/
structure Parsed where
  sheet : Sheet Declaration
  warnings : List Diagnostic

namespace Sheet

/-- Reads the results of the lexer on a text that ends at `finish`. -/
def ofLexed (settings : Settings) (results : List Lexed) (finish : Position) :
    Except Diagnostic Parsed := do
  let (r, warnings) ← Reader.run settings {} [] results
  let (sheet, faults) := r.endOfText finish
  let warnings ← settings.report warnings faults
  return ⟨sheet, warnings⟩

/-- Reads a text. -/
def parse (settings : Settings) (text : String) : Except Diagnostic Parsed :=
  let (results, finish) := (Cursor.ofText text).lex settings.multibyte
  ofLexed settings results finish

/-- Reads the bytes of a text. -/
def parseBytes (settings : Settings) (bytes : ByteArray) : Except Error Parsed :=
  match String.fromUTF8? bytes with
  | some text => (parse settings text).mapError .diagnostic
  | none => .error .notUtf8

end Sheet
end Stylesheet
