import Stylesheet.Declaration
import Stylesheet.Selector
/-!
Style sheets: blocks of declarations under selectors, and at-rules, of which some hold declarations,
some hold nodes in turn, and some hold nothing. The declarations may carry more than their text, so
nodes are over any type `α` of them.
-/

namespace Stylesheet

/-- Declarations under selectors. The line is that of the first selector, zero for none. -/
structure Block (α : Type) where
  selectors : List Selector
  rules : List α
  line : Nat := 0

inductive Node (α : Type) where
  | block (block : Block α)
  /-- An at-rule with declarations, such as `@font-face`. -/
  | atSet (name arguments : String) (rules : List α)
  /-- An at-rule with nodes, such as `@media`. -/
  | atBlock (name arguments : String) (contents : List (Node α))
  /-- An at-rule with neither, such as `@import`. -/
  | atStatement (name arguments : String)

/-- The nodes of a style sheet, or of an at-rule in it. -/
abbrev Sheet (α : Type) := List (Node α)

/-- The at-rules whose braces hold declarations. -/
def declarationAtRules : List String :=
  ["font-face", "page", "viewport", "counter-style", "property"]

/-- A text behind its first hyphen. -/
def behindHyphen? : List Char → Option (List Char)
  | [] => none
  | c :: rest => if c = '-' then some rest else behindHyphen? rest

/-- Whether the braces of an at-rule hold declarations. The name may have a vendor in front, which
leading hyphens are no part of. -/
def holdsDeclarations (name : String) : Bool :=
  let name := (name.toList.dropWhile (· == '-')).map Char.toLower
  declarationAtRules.any fun known =>
    name == known.toList || behindHyphen? name == some known.toList

variable {α β : Type}

namespace Block

/-- Equality, by which declarations are compared with `same`. -/
def same (same : List α → List α → Bool) (b c : Block α) : Bool :=
  b.selectors == c.selectors && same b.rules c.rules && b.line == c.line

def map (f : α → β) (b : Block α) : Block β :=
  ⟨b.selectors, b.rules.map f, b.line⟩

end Block

namespace Node

mutual

def map (f : α → β) : Node α → Node β
  | block b => block (b.map f)
  | atSet name arguments rules => atSet name arguments (rules.map f)
  | atBlock name arguments contents => atBlock name arguments (mapAll f contents)
  | atStatement name arguments => atStatement name arguments

def mapAll (f : α → β) : List (Node α) → List (Node β)
  | [] => []
  | n :: ns => n.map f :: mapAll f ns

end

mutual

/-- Equality, by which declarations are compared with `same`. -/
def same (eq : List α → List α → Bool) : Node α → Node α → Bool
  | block b, block c => b.same eq c
  | atSet name arguments rules, atSet name' arguments' rules' =>
    name == name' && arguments == arguments' && eq rules rules'
  | atBlock name arguments contents, atBlock name' arguments' contents' =>
    name == name' && arguments == arguments' && sameAll eq contents contents'
  | atStatement name arguments, atStatement name' arguments' =>
    name == name' && arguments == arguments'
  | _, _ => false

def sameAll (eq : List α → List α → Bool) : List (Node α) → List (Node α) → Bool
  | n :: ns, m :: ms => n.same eq m && sameAll eq ns ms
  | [], [] => true
  | _, _ => false

end

mutual

/-- The declaration blocks in a node, at-rules entered. -/
def blocks : Node α → List (Block α)
  | block b => [b]
  | atBlock _ _ contents => blocksAll contents
  | atSet .. | atStatement .. => []

def blocksAll : List (Node α) → List (Block α)
  | [] => []
  | n :: ns => n.blocks ++ blocksAll ns

end

mutual

/-- The rows of declarations in a node, those of at-rules included. -/
def ruleSets : Node α → List (List α)
  | block b => [b.rules]
  | atSet _ _ rules => [rules]
  | atBlock _ _ contents => ruleSetsAll contents
  | atStatement .. => []

def ruleSetsAll : List (Node α) → List (List α)
  | [] => []
  | n :: ns => n.ruleSets ++ ruleSetsAll ns

end

end Node

namespace Sheet

def map (f : α → β) (sheet : Sheet α) : Sheet β :=
  Node.mapAll f sheet

def same (eq : List α → List α → Bool) (sheet sheet' : Sheet α) : Bool :=
  Node.sameAll eq sheet sheet'

def blocks (sheet : Sheet α) : List (Block α) :=
  Node.blocksAll sheet

def ruleSets (sheet : Sheet α) : List (List α) :=
  Node.ruleSetsAll sheet

end Sheet
end Stylesheet
