import Stylesheet.Proofs.Sheet.Reading
import Stylesheet.Proofs.Value.Placement
/-!
Where its tokens stand does not matter to what a sheet says. Main statement:
`Reader.readAll_unplaced`.
-/

namespace Stylesheet

open Diagnostic (unplacedResult)

def Declaration.unplaced (d : Declaration) : Declaration :=
  { d with position := .nowhere }

namespace Node

mutual

-- A node with its declarations, wherever they stand. No block says its line.
def unplaced : Node Declaration → Node Declaration
  | block b => block ⟨b.selectors, b.rules.map Declaration.unplaced, 0⟩
  | atSet name arguments rules => atSet name arguments (rules.map Declaration.unplaced)
  | atBlock name arguments contents => atBlock name arguments (unplacedAll contents)
  | atStatement name arguments => atStatement name arguments

def unplacedAll : List (Node Declaration) → List (Node Declaration)
  | [] => []
  | n :: ns => n.unplaced :: unplacedAll ns

end

theorem unplacedAll_append (ns ms : List (Node Declaration)) :
    unplacedAll (ns ++ ms) = unplacedAll ns ++ unplacedAll ms := by
  induction ns
  case nil => rfl
  case cons ih => rw [List.cons_append, unplacedAll, unplacedAll, ih, List.cons_append]

end Node

def Sheet.unplaced (sheet : Sheet Declaration) : Sheet Declaration :=
  Node.unplacedAll sheet

theorem Sheet.unplaced_append (sheet sheet' : Sheet Declaration) :
    Sheet.unplaced (sheet ++ sheet') = sheet.unplaced ++ sheet'.unplaced :=
  Node.unplacedAll_append sheet sheet'

/-! ### Declarations -/

theorem dropWhile_isWhitespace_unplaced (ts : List Placed) :
    (ts.map Placed.unplaced).dropWhile (·.token.isWhitespace) =
      (ts.dropWhile (·.token.isWhitespace)).map Placed.unplaced :=
  List.dropWhile_map ..

theorem splitImportant_unplaced (tokens : List Placed) :
    splitImportant (tokens.map Placed.unplaced) =
      ((splitImportant tokens).1, (splitImportant tokens).2.map Placed.unplaced) := by
  simp only [splitImportant, ← List.map_reverse, dropWhile_isWhitespace_unplaced]
  cases tokens.reverse.dropWhile (·.token.isWhitespace)
  case nil => rfl
  case cons last before =>
    obtain ⟨token, position⟩ := last
    simp only [List.map_cons, dropWhile_isWhitespace_unplaced]
    cases token
    case identifier =>
      cases before.dropWhile (·.token.isWhitespace)
      case nil => rfl
      case cons bang value =>
        simp only [List.map_cons, Placed.unplaced]
        split <;> simp
    all_goals rfl

theorem Declaration.ofTokens_unplaced (name : String) (position : Position) (tokens : List Placed)
    (finish : Position) :
    Declaration.ofTokens name .nowhere (tokens.map Placed.unplaced) .nowhere =
      unplacedResult Declaration.unplaced (Declaration.ofTokens name position tokens finish) := by
  simp only [Declaration.ofTokens, splitImportant_unplaced, List.all_map]
  split
  case isTrue h => exact (if_pos h).symm ▸ rfl
  case isFalse h =>
    rw [if_neg (by exact h), Value.ofTokens_unplaced _ finish]
    exact Diagnostic.unplacedResult_map (fun _ => by rfl) _

/-! ### Bodies -/

def Clause.unplaced : Clause → Clause
  | between => between
  | afterName name _ => afterName name .nowhere
  | value name _ tokens damaged => value name .nowhere (tokens.map Placed.unplaced) damaged
  | skipping => skipping
  | skippingBlock depth => skippingBlock depth

namespace Body

def unplaced (b : Body) : Body :=
  ⟨b.done.map Declaration.unplaced, b.clause.unplaced⟩

def Outcome.unplaced (o : Outcome) : Outcome :=
  ⟨o.body.unplaced, o.closed, o.faults.map Diagnostic.unplaced⟩

variable {b : Body}

theorem endValue_unplaced (name : String) (position : Position) (tokens : List Placed)
    (damaged : Bool) (finish : Position) :
    b.unplaced.endValue name .nowhere (tokens.map Placed.unplaced) damaged .nowhere =
      ((b.endValue name position tokens damaged finish).1.unplaced,
        (b.endValue name position tokens damaged finish).2.map Diagnostic.unplaced) := by
  cases damaged
  case true => rfl
  case false =>
    simp only [endValue, Declaration.ofTokens_unplaced name position tokens finish]
    cases Declaration.ofTokens name position tokens finish <;> simp [unplaced, Clause.unplaced]

theorem step_unplaced (t : Placed) : b.unplaced.step t.unplaced = (b.step t).unplaced := by
  obtain ⟨done, clause⟩ := b
  obtain ⟨token, position⟩ := t
  cases clause
  case between => cases token <;> rfl
  case afterName => cases token <;> rfl
  case value name start tokens damaged =>
    have hend := @endValue_unplaced ⟨done, .value name start tokens damaged⟩ name start tokens
      damaged position
    have hgo : Clause.value name .nowhere (tokens.map Placed.unplaced ++
        [Placed.unplaced ⟨token, position⟩]) damaged =
        (Clause.value name start (tokens ++ [⟨token, position⟩]) damaged).unplaced := by
      simp [Clause.unplaced]
    cases token
    case semicolon | closeBrace =>
      simp only [step, unplaced, Clause.unplaced, Placed.unplaced] at hend ⊢
      rw [hend]
      rfl
    case openBrace => rfl
    all_goals exact congrArg (fun clause => Outcome.mk ⟨_, clause⟩ false []) hgo
  case skipping => cases token <;> rfl
  case skippingBlock depth => cases token <;> cases depth <;> rfl

theorem damage_unplaced : b.unplaced.damage = b.damage.unplaced := by
  obtain ⟨done, clause⟩ := b
  cases clause <;> rfl

theorem endOfText_unplaced (finish : Position) : b.unplaced.endOfText .nowhere =
    ((b.endOfText finish).1.map Declaration.unplaced,
      (b.endOfText finish).2.map Diagnostic.unplaced) := by
  obtain ⟨done, clause⟩ := b
  cases clause
  case value name start tokens damaged =>
    have hend := @endValue_unplaced ⟨done, .value name start tokens damaged⟩ name start tokens
      damaged finish
    simp only [endOfText, unplaced, Clause.unplaced] at hend ⊢
    simp [hend]
  all_goals rfl

end Body

/-! ### Nodes -/

def Owner.unplaced : Owner → Owner
  | block selectors _ => block selectors 0
  | atRule name arguments => atRule name arguments

theorem Owner.node_unplaced (owner : Owner) (rules : List Declaration) :
    owner.unplaced.node (rules.map Declaration.unplaced) = (owner.node rules).unplaced := by
  cases owner <;> simp [Owner.unplaced, Owner.node, Node.unplaced]

def Focus.unplaced : Focus → Focus
  | between => between
  | selector _ prelude damaged => selector .nowhere prelude damaged
  | atPrelude name prelude damaged => atPrelude name prelude damaged
  | .body owner b => .body owner.unplaced b.unplaced
  | skippingBlock depth => skippingBlock depth

def Frame.unplaced (f : Frame) : Frame :=
  { f with before := f.before.unplaced }

namespace Reader

def unplaced (r : Reader) : Reader :=
  ⟨r.frames.map Frame.unplaced, r.nodes.unplaced, r.focus.unplaced⟩

-- A reader that found faults, wherever everything stands.
def unplacedFound (found : Reader × List Diagnostic) : Reader × List Diagnostic :=
  (found.1.unplaced, found.2.map Diagnostic.unplaced)

variable {r : Reader}

theorem append_unplaced (n : Node Declaration) :
    r.unplaced.append n.unplaced = (r.append n).unplaced := by
  simp only [append, unplaced, Sheet.unplaced_append]
  rfl

theorem closeBrace_unplaced (position : Position) :
    r.unplaced.closeBrace .nowhere = unplacedFound (r.closeBrace position) := by
  obtain ⟨frames, nodes, focus⟩ := r
  cases frames
  case nil => rfl
  case cons frame frames =>
    simp only [closeBrace, unplaced, List.map_cons, close, unplacedFound, Sheet.unplaced_append]
    rfl

theorem openBlock_unplaced (start : Position) (prelude : List Token) (damaged : Bool) :
    r.unplaced.openBlock .nowhere prelude damaged =
      unplacedFound (r.openBlock start prelude damaged) := by
  simp only [openBlock]
  cases damaged
  case true => rfl
  case false => cases Selector.listOfText (preludeText prelude) <;> rfl

theorem openAtRule_unplaced (name : String) (prelude : List Token) (damaged : Bool) :
    r.unplaced.openAtRule name prelude damaged = (r.openAtRule name prelude damaged).unplaced := by
  simp only [openAtRule]
  cases damaged
  case true => rfl
  case false => cases holdsDeclarations name <;> rfl

theorem endStatement_unplaced (name : String) (prelude : List Token) (damaged : Bool) :
    r.unplaced.endStatement name prelude damaged =
      (r.endStatement name prelude damaged).unplaced := by
  cases damaged
  case true => rfl
  case false => exact append_unplaced (.atStatement name (trimmedText prelude))

theorem selectorStep_unplaced (start : Position) (prelude : List Token) (damaged : Bool)
    (t : Placed) : r.unplaced.selectorStep .nowhere prelude damaged t.unplaced =
      unplacedFound (r.selectorStep start prelude damaged t) := by
  obtain ⟨token, position⟩ := t
  cases token
  case openBrace => exact openBlock_unplaced start prelude damaged
  case closeBrace =>
    simp only [selectorStep, Placed.unplaced, @closeBrace_unplaced r position]
    rfl
  all_goals rfl

theorem step_unplaced (t : Placed) : r.unplaced.step t.unplaced = unplacedFound (r.step t) := by
  cases hf : r.focus
  case between =>
    have hf' : r.unplaced.focus = .between := by rw [unplaced, hf]; rfl
    simp only [step, hf, hf']
    obtain ⟨token, position⟩ := t
    cases token
    case closeBrace => exact closeBrace_unplaced position
    case whitespace | semicolon | atKeyword => rfl
    all_goals exact selectorStep_unplaced position [] false ⟨_, position⟩
  case selector start prelude damaged =>
    have hf' : r.unplaced.focus = .selector .nowhere prelude damaged := by rw [unplaced, hf]; rfl
    simp only [step, hf, hf']
    exact selectorStep_unplaced start prelude damaged t
  case atPrelude name prelude damaged =>
    have hf' : r.unplaced.focus = .atPrelude name prelude damaged := by rw [unplaced, hf]; rfl
    simp only [step, hf, hf']
    obtain ⟨token, position⟩ := t
    cases token
    case openBrace => exact congrArg (·, []) (openAtRule_unplaced name prelude damaged)
    case semicolon => exact congrArg (·, []) (endStatement_unplaced name prelude damaged)
    case closeBrace =>
      simp only [Placed.unplaced, endStatement_unplaced]
      exact closeBrace_unplaced position
    all_goals rfl
  case body owner body =>
    have hf' : r.unplaced.focus = .body owner.unplaced body.unplaced := by rw [unplaced, hf]; rfl
    simp only [step, hf, hf', Body.step_unplaced, unplacedFound]
    cases hc : (body.step t).closed
    case false => simp [Body.Outcome.unplaced, hc]; rfl
    case true =>
      simp only [Body.Outcome.unplaced, hc, if_true]
      rw [← append_unplaced, ← Owner.node_unplaced]
      rfl
  case skippingBlock depth =>
    have hf' : r.unplaced.focus = .skippingBlock depth := by rw [unplaced, hf]; rfl
    simp only [step, hf, hf']
    obtain ⟨token, position⟩ := t
    cases token <;> cases depth <;> rfl

theorem damage_unplaced : r.unplaced.damage = r.damage.unplaced := by
  cases hf : r.focus
  case body owner body =>
    have hf' : r.unplaced.focus = .body owner.unplaced body.unplaced := by rw [unplaced, hf]; rfl
    simp only [damage, hf, hf', Body.damage_unplaced]
    rfl
  all_goals
    simp only [damage, unplaced, hf]
    rfl

theorem read_unplaced (result : Lexed) :
    r.unplaced.read (Cursor.unplaced result) = unplacedFound (r.read result) := by
  cases result
  case ok t => exact step_unplaced t
  case error d => exact congrArg (·, [d.unplaced]) damage_unplaced

theorem closeAll_unplaced (finish : Position) (frames : List Frame) (nodes : Sheet Declaration) :
    closeAll .nowhere (frames.map Frame.unplaced) nodes.unplaced =
      ((closeAll finish frames nodes).1.unplaced,
        (closeAll finish frames nodes).2.map Diagnostic.unplaced) := by
  induction frames generalizing nodes
  case nil => rfl
  case cons frame frames ih =>
    have := ih (frame.before ++ [.atBlock frame.name frame.arguments nodes])
    rw [Sheet.unplaced_append] at this
    simp only [closeAll, List.map_cons]
    exact congrArg (fun all : Sheet Declaration × List Diagnostic =>
      (all.1, Diagnostic.atToken .unterminatedBlock .nowhere :: all.2)) this

theorem endOfText_unplaced (finish : Position) : r.unplaced.endOfText .nowhere =
    ((r.endOfText finish).1.unplaced, (r.endOfText finish).2.map Diagnostic.unplaced) := by
  -- What is being read is ended first, and then the at-rules around it.
  have hclose (r : Reader) (faults : List Diagnostic) :
      let all := closeAll .nowhere r.unplaced.frames r.unplaced.nodes
      (all.1, faults.map Diagnostic.unplaced ++ all.2) =
        ((closeAll finish r.frames r.nodes).1.unplaced,
          (faults ++ (closeAll finish r.frames r.nodes).2).map Diagnostic.unplaced) := by
    simp [unplaced, closeAll_unplaced finish]
  cases hf : r.focus
  case between | skippingBlock =>
    simp only [endOfText, unplaced, hf, Focus.unplaced]
    exact hclose r []
  case selector start prelude damaged =>
    simp only [endOfText, unplaced, hf, Focus.unplaced]
    exact hclose r [.atToken (.expectedBlock (trimmedText prelude)) finish]
  case atPrelude name prelude damaged =>
    have hf' : r.unplaced.focus = .atPrelude name prelude damaged := by rw [unplaced, hf]; rfl
    simp only [endOfText, hf, hf', endStatement_unplaced]
    exact hclose (r.endStatement name prelude damaged) []
  case body owner body =>
    have hf' : r.unplaced.focus = .body owner.unplaced body.unplaced := by rw [unplaced, hf]; rfl
    simp only [endOfText, hf, hf', Body.endOfText_unplaced finish, Owner.node_unplaced,
      append_unplaced]
    exact hclose (r.append (owner.node (body.endOfText finish).1)) (body.endOfText finish).2

theorem readAll_unplaced (finish : Position) (r : Reader) (results : List Lexed) :
    r.unplaced.readAll .nowhere (results.map Cursor.unplaced) =
      ((r.readAll finish results).1.unplaced,
        (r.readAll finish results).2.map Diagnostic.unplaced) := by
  induction results generalizing r
  case nil => exact endOfText_unplaced finish
  case cons result results ih =>
    simp only [List.map_cons, readAll, read_unplaced, unplacedFound, ih, List.map_append]

end Reader
end Stylesheet
