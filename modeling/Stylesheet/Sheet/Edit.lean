import Stylesheet.Sheet.Reader
import Stylesheet.Shorthand.All
/-!
Editing style sheets of rules. Blocks and rule sets are addressed by their index among all of the
sheet, in the order of `Sheet.blocks` and `Sheet.ruleSets`; a list of nodes is addressed by the
indices of the at-rules that lead to it.
-/

namespace Stylesheet

namespace Node

variable {α : Type}

mutual

/-- Replaces the rule set with index `i`. -/
def setRuleSet (i : Nat) (new : List α) : Node α → Node α
  | block b => if i = 0 then block { b with rules := new } else block b
  | atSet name arguments rules => atSet name arguments (if i = 0 then new else rules)
  | atBlock name arguments contents => atBlock name arguments (setRuleSetAll i new contents)
  | atStatement name arguments => atStatement name arguments

def setRuleSetAll (i : Nat) (new : List α) : List (Node α) → List (Node α)
  | [] => []
  | n :: ns =>
    let size := n.ruleSets.length
    if i < size then n.setRuleSet i new :: ns else n :: setRuleSetAll (i - size) new ns

end

mutual

/-- Replaces the block with index `i`. -/
def setBlock (i : Nat) (new : Block α) : Node α → Node α
  | block b => block (if i = 0 then new else b)
  | atBlock name arguments contents => atBlock name arguments (setBlockAll i new contents)
  | n => n

def setBlockAll (i : Nat) (new : Block α) : List (Node α) → List (Node α)
  | [] => []
  | n :: ns =>
    let size := n.blocks.length
    if i < size then n.setBlock i new :: ns else n :: setBlockAll (i - size) new ns

end

def isBlockOf (selectors : List Selector) : Node α → Bool
  | block b => b.selectors == selectors
  | _ => false

mutual

/-- Drops the blocks with these selectors from the at-rules in a node. -/
def removeBlocks (selectors : List Selector) : Node α → Node α
  | atBlock name arguments contents => atBlock name arguments (removeBlocksAll selectors contents)
  | n => n

/-- Drops the blocks with these selectors, those in at-rules included. -/
def removeBlocksAll (selectors : List Selector) : List (Node α) → List (Node α)
  | [] => []
  | n :: ns =>
    let rest := removeBlocksAll selectors ns
    if n.isBlockOf selectors then rest else n.removeBlocks selectors :: rest

end

mutual

/-- Maps the rules of each block; the declarations of at-rules stay as they are. -/
def mapBlocks (f : RuleSet → Fresh RuleSet) : Node Rule → Fresh (Node Rule)
  | block b => return block { b with rules := ← f b.rules }
  | atBlock name arguments contents =>
    return atBlock name arguments (← mapBlocksAll f contents)
  | n => return n

def mapBlocksAll (f : RuleSet → Fresh RuleSet) : List (Node Rule) → Fresh (List (Node Rule))
  | [] => return []
  | n :: ns => return (← n.mapBlocks f) :: (← mapBlocksAll f ns)

end

mutual

/-- Gives each declaration a new identity. -/
def identify : Node Declaration → Fresh (Node Rule)
  | block b => return block ⟨b.selectors, ← Rule.freshAll b.rules, b.line⟩
  | atSet name arguments rules => return atSet name arguments (← Rule.freshAll rules)
  | atBlock name arguments contents => return atBlock name arguments (← identifyAll contents)
  | atStatement name arguments => return atStatement name arguments

def identifyAll : List (Node Declaration) → Fresh (List (Node Rule))
  | [] => return []
  | n :: ns => return (← n.identify) :: (← identifyAll ns)

end

/-- Changes the arguments of an at-rule that holds no declarations; other nodes have none to set. -/
def setArguments? (arguments : String) : Node α → Option (Node α)
  | atBlock name _ contents => some (atBlock name arguments contents)
  | atStatement name _ => some (atStatement name arguments)
  | block _ | atSet .. => none

end Node

namespace Sheet

variable {α : Type}

def setRuleSet (i : Nat) (new : List α) (sheet : Sheet α) : Sheet α :=
  Node.setRuleSetAll i new sheet

def setBlock (i : Nat) (new : Block α) (sheet : Sheet α) : Sheet α :=
  Node.setBlockAll i new sheet

def removeBlocks (selectors : List Selector) (sheet : Sheet α) : Sheet α :=
  Node.removeBlocksAll selectors sheet

/-- Gives each declaration a new identity. -/
def identify (sheet : Sheet Declaration) : Fresh (Sheet Rule) :=
  Node.identifyAll sheet

/-- The sheet without the identities of its rules. -/
def declarations (sheet : Sheet Rule) : Sheet Declaration :=
  sheet.map Rule.toDeclaration

def expandAll (sheet : Sheet Rule) : Fresh (Sheet Rule) :=
  Node.mapBlocksAll RuleSet.expandAll sheet

def createAll (sheet : Sheet Rule) : Fresh (Sheet Rule) :=
  Node.mapBlocksAll RuleSet.createAll sheet

/-- What the values of the matching rules are made of, in order. -/
def values (sheet : Sheet Rule) (pattern : Option String) : List Value :=
  sheet.ruleSets.flatMap fun rs => (RuleSet.select rs pattern).flatMap (·.value.leaves)

/-- The list of nodes that indices of at-rules lead to. -/
def list? : (path : List Nat) → Sheet α → Option (List (Node α))
  | [], sheet => some sheet
  | i :: path, sheet =>
    match sheet[i]? with
    | some (.atBlock _ _ contents) => list? path contents
    | _ => none

/-- Replaces the list of nodes that indices of at-rules lead to. -/
def setList (new : List (Node α)) : (path : List Nat) → Sheet α → Sheet α
  | [], _ => new
  | i :: path, sheet =>
    match sheet[i]? with
    | some (.atBlock name arguments contents) =>
      sheet.set i (.atBlock name arguments (setList new path contents))
    | _ => sheet

/-- Inserts nodes at an index, or at the end if the list is shorter. -/
def insertAt (i : Nat) (new sheet : Sheet α) : Sheet α :=
  sheet.take i ++ new ++ sheet.drop i

end Sheet

/-- The only block of a text. -/
def Block.ofText (text : String) : Except Diagnostic (Block Declaration) := do
  let parsed ← Sheet.parse {} text
  match parsed.sheet with
  | [.block b] => return b
  | _ => .error (.atToken .expectedOneBlock .start)

end Stylesheet
