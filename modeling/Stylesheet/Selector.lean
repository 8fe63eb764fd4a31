import Stylesheet.Text.Blank
/-!
Selectors. A selector is text with every run of white space made one blank, in which brackets and
strings are closed and neither a brace nor a semicolon stands free. `Selector.ofText` reads a
single one and `Selector.listOfText` a list, which commas outside brackets and strings divide.
-/

namespace Stylesheet

structure Selector where
  text : String
deriving DecidableEq

namespace Selector

/-- Why a text is no selector. -/
inductive Fault where
  | empty
  | unbalanced (bracket : Char)
  | unexpected (c : Char)
  | unterminatedString
  | unclosed (bracket : Char)
  | topLevelComma
  | emptyInList
  | other (message : String)
deriving DecidableEq

def Fault.message : Fault → String
  | empty => "empty selector"
  | unbalanced c => s!"unbalanced '{c}'"
  | unexpected c => s!"unexpected '{c}'"
  | unterminatedString => "unterminated string"
  | unclosed c => s!"unclosed '{c}'"
  | topLevelComma => "unexpected ',' in a single selector"
  | emptyInList => "empty selector in list"
  | other message => message

/-- A refused text, as it was given. -/
structure Refusal where
  text : String
  fault : Fault
deriving DecidableEq

def Refusal.message (r : Refusal) : String :=
  s!"Invalid selector '{r.text}': {r.fault.message}"

def isQuote (c : Char) : Bool :=
  c == '\x22' || c == '\x27'

/-- Where a walk over selector text stands: outside strings or in one, and there and here behind a
backslash or not. -/
inductive Context where
  | plain
  | escaped
  | quoted (quote : Char)
  | quotedEscape (quote : Char)
deriving DecidableEq

namespace Context

/-- The context in a string behind one more character of it. -/
def inString (quote c : Char) : Context :=
  if c = '\\' then quotedEscape quote else if c = quote then plain else quoted quote

def next : Context → Char → Context
  | plain, c => if c = '\\' then escaped else if isQuote c then quoted c else plain
  | escaped, _ => plain
  | quoted q, c => inString q c
  | quotedEscape q, _ => quoted q

end Context

/-- Makes each run of white space outside strings one blank, and none at the end. Quotes count here
also behind a backslash. -/
def collapse (gap : Bool) : Context → List Char → List Char
  | _, [] => []
  | .quoted q, c :: rest => c :: collapse false (Context.inString q c) rest
  | .quotedEscape q, c :: rest => c :: collapse false (.quoted q) rest
  | _, c :: rest =>
    if Text.isBlank c then collapse true .plain rest
    else
      let inside := if isQuote c then .quoted c else .plain
      if gap then ' ' :: c :: collapse false inside rest else c :: collapse false inside rest

def normalize (cs : List Char) : List Char :=
  collapse false .plain (Text.trim cs)

def opening (c : Char) : Char :=
  if c = ')' then '(' else '['

/-- The fault in text behind the context and the open brackets, innermost first. -/
def check : Context → List Char → List Char → Option Fault
  | .plain, [], [] => none
  | .plain, bracket :: _, [] => some (.unclosed bracket)
  | .escaped, [], [] => none
  | .escaped, bracket :: _, [] => some (.unclosed bracket)
  | .quoted _, _, [] | .quotedEscape _, _, [] => some .unterminatedString
  | .plain, stack, c :: rest =>
    if c = '(' || c = '[' then check .plain (c :: stack) rest
    else if c = ')' || c = ']' then
      match stack with
      | bracket :: stack =>
        if bracket = opening c then check .plain stack rest else some (.unbalanced c)
      | [] => some (.unbalanced c)
    else if c = '{' || c = '}' || c = ';' then some (.unexpected c)
    else check (Context.next .plain c) stack rest
  | context, stack, c :: rest => check (context.next c) stack rest

/-- Splits at the commas outside brackets and strings. -/
def splitTopLevel : Context → Nat → List Char → List (List Char)
  | _, _, [] => [[]]
  | .plain, depth, c :: rest =>
    if c = ',' && depth = 0 then [] :: splitTopLevel .plain depth rest
    else
      let depth :=
        if c = '(' || c = '[' then depth + 1
        else if c = ')' || c = ']' then depth - 1
        else depth
      prepend c (splitTopLevel (Context.next .plain c) depth rest)
  | context, depth, c :: rest => prepend c (splitTopLevel (context.next c) depth rest)
where
  prepend (c : Char) : List (List Char) → List (List Char)
    | part :: parts => (c :: part) :: parts
    | [] => [[c]]

/-- The fault in a whole normalized text. -/
def fault? (cs : List Char) : Option Fault :=
  if cs.isEmpty then some .empty else check .plain [] cs

def ofText (text : String) : Except Refusal Selector :=
  let cs := normalize text.toList
  match fault? cs with
  | some fault => .error ⟨text, fault⟩
  | none =>
    if 1 < (splitTopLevel .plain 0 cs).length then .error ⟨text, .topLevelComma⟩
    else .ok ⟨String.ofList cs⟩

/-- Reads a list of selectors, none of which may be empty. -/
def listOfText (text : String) : Except Refusal (List Selector) :=
  let cs := normalize text.toList
  match fault? cs with
  | some fault => .error ⟨text, fault⟩
  | none =>
    let parts := (splitTopLevel .plain 0 cs).map Text.trim
    if parts.any List.isEmpty then .error ⟨text, .emptyInList⟩
    else .ok (parts.map fun part => ⟨String.ofList part⟩)

end Selector
end Stylesheet
