import Stylesheet.Sheet.Reader
/-!
Reading a style sheet by recursive descent. Each form of the grammar is read by a loop of its own,
which asks the lexer for one token after the other, looking one ahead. A loop makes no more rounds
than its limit, and the loops in a round are left what is left then; `none` stands for a loop that
would go on. A descent counts the rounds of its loops and what they take off the lexer. It reads
what `Sheet.parse` reads, which keeps what is open in a state instead.
-/

namespace Stylesheet

/-- How far a descent has come. -/
structure Descent where
  lexer : Lexer
  warnings : List Diagnostic := []
  /-- How many results of the lexer were taken. -/
  taken : Nat := 0
  /-- How many rounds the loops made. -/
  rounds : Nat := 0
  /-- How many rounds took nothing and were not the last of their loops. -/
  idle : Nat := 0

abbrev Descend := StateT Descent (ExceptT Diagnostic Option)

/-- The token ahead, if it is not the end of the text, and its position. -/
structure Ahead where
  token : Option Token
  position : Position

namespace Descent

/-! ### Tokens -/

/-- A loop that has come to its limit. -/
def exhausted {α : Type} : Descend α :=
  fun _ => ExceptT.mk none

/-- Begins a round of a loop. The result tells how much was taken before. -/
def round : Descend Nat :=
  modifyGet fun d => (d.taken, { d with rounds := d.rounds + 1 })

/-- Ends a round that is not the last of its loop. -/
def again (before : Nat) : Descend Unit :=
  modify fun d => { d with idle := d.idle + if d.taken = before then 1 else 0 }

/-- Looks at the next result of the lexer, or where the text ends. -/
def look : Descend (Position ⊕ Lexed) :=
  modifyGet fun d =>
    let (result, lexer) := d.lexer.peek
    (match result with
      | none => .inl lexer.cursor.position
      | some result => .inr result,
      { d with lexer })

/-- Takes the next result of the lexer. There is none at the end of the text. -/
def take : Descend (Option Lexed) :=
  modifyGet fun d =>
    let (result, lexer) := d.lexer.next
    (result, { d with lexer, taken := d.taken + result.toList.length })

/-- Whether something was found wrong meanwhile. -/
def watch {α : Type} (x : Descend α) : Descend (α × Bool) := do
  let before := (← get).warnings.length
  let a ← x
  return (a, (← get).warnings.length != before)

variable (settings : Settings)

/-- Records a fault, or ends the descent with it. -/
def recover (fault : Diagnostic) : Descend Unit :=
  if settings.lenient then modify fun d => { d with warnings := d.warnings ++ [fault] }
  else throw fault

/-- Looks at the next well-formed token. Malformed ones in front of it are taken. -/
def peek : (limit : Nat) → Descend Ahead
  | 0 => exhausted
  | limit + 1 => do
    let before ← round
    match ← look with
    | .inl finish => return ⟨none, finish⟩
    | .inr (.ok t) => return ⟨some t.token, t.position⟩
    | .inr (.error fault) =>
      let _ ← take
      recover settings fault
      again before
      peek limit

/-- Takes the next well-formed token. -/
def next (limit : Nat) : Descend Ahead := do
  let ahead ← peek settings limit
  let _ ← take
  return ahead

def skipWhitespace : (limit : Nat) → Descend Unit
  | 0 => exhausted
  | limit + 1 => do
    let before ← round
    let ahead ← peek settings limit
    match ahead.token with
    | some .whitespace =>
      let _ ← next settings limit
      again before
      skipWhitespace limit
    | _ => return

/-- Skips the rest of a braced block, and of so many around it. -/
def skipBlock : (depth limit : Nat) → Descend Unit
  | _, 0 => exhausted
  | depth, limit + 1 => do
    let before ← round
    let ahead ← next settings limit
    match ahead.token, depth with
    | none, _ | some .closeBrace, 0 => return
    | some .closeBrace, depth + 1 =>
      again before
      skipBlock depth limit
    | some .openBrace, depth =>
      again before
      skipBlock (depth + 1) limit
    | some _, depth =>
      again before
      skipBlock depth limit

/-! ### Declarations -/

/-- Skips the rest of a declaration, with its semicolon or with a braced block, but not the brace
that closes what it is in. -/
def skipDeclaration : (limit : Nat) → Descend Unit
  | 0 => exhausted
  | limit + 1 => do
    let before ← round
    let ahead ← peek settings limit
    match ahead.token with
    | none | some .closeBrace => return
    | some .semicolon =>
      let _ ← next settings limit
      return
    | some .openBrace =>
      let _ ← next settings limit
      skipBlock settings 0 limit
    | some _ =>
      let _ ← next settings limit
      again before
      skipDeclaration limit

/-- The tokens up to the end of a value, and where that is. A brace makes it none. -/
def valueTokens (name : String) :
    (tokens : List Placed) → (limit : Nat) → Descend (Option (List Placed × Position))
  | _, 0 => exhausted
  | tokens, limit + 1 => do
    let before ← round
    let ahead ← peek settings limit
    match ahead.token with
    | none | some .closeBrace => return some (tokens, ahead.position)
    | some .semicolon =>
      let _ ← next settings limit
      return some (tokens, ahead.position)
    | some .openBrace =>
      recover settings (.atToken (.braceInValue name) ahead.position)
      skipDeclaration settings limit
      return none
    | some token =>
      let _ ← next settings limit
      again before
      valueTokens name (tokens ++ [⟨token, ahead.position⟩]) limit

/-- The value of a declaration, behind the colon. -/
def value (name : String) (position : Position) (limit : Nat) : Descend (Option Declaration) := do
  let (taken, damaged) ← watch (valueTokens settings name [] limit)
  match taken, damaged with
  | none, _ => return none
  | some _, true => return none
  | some (tokens, finish), false =>
    match Declaration.ofTokens name position tokens finish with
    | .ok d => return some d
    | .error fault =>
      recover settings fault
      return none

/-- The declaration that begins with the token ahead. -/
def declaration (token : Token) (position : Position) (limit : Nat) :
    Descend (Option Declaration) := do
  match token with
  | .identifier word =>
    let _ ← next settings limit
    skipWhitespace settings limit
    let colon ← peek settings limit
    match colon.token with
    | some .colon =>
      let _ ← next settings limit
      value settings (propertyName word) position limit
    | _ =>
      recover settings (.atToken (.expectedColon (propertyName word)) colon.position)
      skipDeclaration settings limit
      return none
  | other =>
    recover settings (.atToken (.expectedName other) position)
    skipDeclaration settings limit
    return none

/-- Declarations up to the closing brace. -/
def declarations : (rules : List Declaration) → (limit : Nat) → Descend (List Declaration)
  | _, 0 => exhausted
  | rules, limit + 1 => do
    let before ← round
    skipWhitespace settings limit
    let ahead ← peek settings limit
    match ahead.token with
    | none =>
      recover settings (.atToken .unterminatedBlock ahead.position)
      return rules
    | some .closeBrace =>
      let _ ← next settings limit
      return rules
    | some .semicolon =>
      let _ ← next settings limit
      again before
      declarations rules limit
    | some token =>
      let d ← declaration settings token ahead.position limit
      again before
      declarations (rules ++ d.toList) limit

/-! ### Nodes -/

/-- The tokens up to the opening brace of a block. Another end makes it none. -/
def blockPrelude : (prelude : List Token) → (limit : Nat) → Descend (Option (List Token))
  | _, 0 => exhausted
  | prelude, limit + 1 => do
    let before ← round
    let ahead ← peek settings limit
    let fault := Diagnostic.atToken (.expectedBlock (Reader.trimmedText prelude)) ahead.position
    match ahead.token with
    | some .openBrace =>
      let _ ← next settings limit
      return some prelude
    | none | some .closeBrace =>
      recover settings fault
      return none
    | some .semicolon =>
      let _ ← next settings limit
      recover settings fault
      return none
    | some token =>
      let _ ← next settings limit
      again before
      blockPrelude (prelude ++ [token]) limit

/-- The block that begins with the token ahead. -/
def block (limit : Nat) : Descend (Option (Node Declaration)) := do
  let start ← peek settings limit
  let (prelude?, damaged) ← watch (blockPrelude settings [] limit)
  match prelude?, damaged with
  | none, _ => return none
  | some _, true =>
    skipBlock settings 0 limit
    return none
  | some prelude, false =>
    match Selector.listOfText (Reader.preludeText prelude) with
    | .ok selectors =>
      let rules ← declarations settings [] limit
      return some (.block { selectors, rules, line := start.position.line })
    | .error refusal =>
      recover settings (.atToken (.invalidSelector refusal) start.position)
      skipBlock settings 0 limit
      return none

/-- The tokens up to the end of the prelude of an at-rule, and whether that is a brace. -/
def atPrelude : (prelude : List Token) → (limit : Nat) → Descend (List Token × Bool)
  | _, 0 => exhausted
  | prelude, limit + 1 => do
    let before ← round
    let ahead ← peek settings limit
    match ahead.token with
    | none | some .closeBrace => return (prelude, false)
    | some .semicolon =>
      let _ ← next settings limit
      return (prelude, false)
    | some .openBrace =>
      let _ ← next settings limit
      return (prelude, true)
    | some token =>
      let _ ← next settings limit
      again before
      atPrelude (prelude ++ [token]) limit

/-- The rest of an at-rule behind its keyword, whose nodes `nested` reads. A malformed token in the
prelude makes it none. -/
def atRule (nested : Descend (Sheet Declaration)) (name : String) (limit : Nat) :
    Descend (Option (Node Declaration)) := do
  let ((prelude, opens), damaged) ← watch (atPrelude settings [] limit)
  match opens, damaged with
  | false, true => return none
  | false, false => return some (.atStatement name (Reader.trimmedText prelude))
  | true, true =>
    skipBlock settings 0 limit
    return none
  | true, false =>
    if holdsDeclarations name then
      let rules ← declarations settings [] limit
      return some (.atSet name (Reader.trimmedText prelude) rules)
    else
      let contents ← nested
      return some (.atBlock name (Reader.trimmedText prelude) contents)

/-- Nodes up to the end of the text, or up to the closing brace of what they are nested in. -/
def nodes : (nested : Bool) → (done : Sheet Declaration) → (limit : Nat) →
    Descend (Sheet Declaration)
  | _, _, 0 => exhausted
  | nested, done, limit + 1 => do
    let before ← round
    skipWhitespace settings limit
    let ahead ← peek settings limit
    match ahead.token with
    | none =>
      if nested then recover settings (.atToken .unterminatedBlock ahead.position)
      return done
    | some .closeBrace =>
      let _ ← next settings limit
      if nested then return done
      else
        recover settings (.atToken .unmatchedBrace ahead.position)
        again before
        nodes nested done limit
    | some .semicolon =>
      let _ ← next settings limit
      recover settings (.atToken .unexpectedSemicolon ahead.position)
      again before
      nodes nested done limit
    | some (.atKeyword name) =>
      let _ ← next settings limit
      let n ← atRule settings (nodes true [] limit) (Text.lower name) limit
      again before
      nodes nested (done ++ n.toList) limit
    | some _ =>
      let n ← block settings limit
      again before
      nodes nested (done ++ n.toList) limit

end Descent

/-- Reads a text, and tells what the descent came to. There is no result if it came to a limit. -/
def Sheet.descend (settings : Settings) (text : String) (limit : Nat) :
    Option (Except Diagnostic (Parsed × Descent)) :=
  ((Descent.nodes settings false [] limit).run { lexer := .ofText settings.multibyte text }).run.map
    (·.map fun (sheet, d) => (⟨sheet, d.warnings⟩, d))

end Stylesheet
