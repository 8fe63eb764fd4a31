import Stylesheet.Rule
/-!
Rule sets: rules in order, the last one of a name being the one that counts. Rules are found by
identity or by a pattern, which is a name or, with a hyphen at its end, a whole family of names.
-/

namespace Stylesheet

abbrev RuleSet := List Rule

/-- A family, if the pattern stands for one: its name is what is in front of the final hyphen. -/
def familyOf? (pattern : List Char) : Option (List Char) :=
  match pattern.reverse with
  | '-' :: c :: family => some (c :: family).reverse
  | _ => none

/-- Whether a name is the pattern, or belongs to the family that the pattern stands for. -/
def matchesPattern (pattern name : String) : Bool :=
  match familyOf? pattern.toList with
  | some family => pattern.toList.isPrefixOf name.toList || name.toList == family
  | none => name == pattern

def matchesPattern? (pattern : Option String) (name : String) : Bool :=
  match pattern with
  | some pattern => matchesPattern pattern name
  | none => true

namespace RuleSet

def declarations (rs : RuleSet) : List Declaration :=
  rs.map Rule.toDeclaration

/-- Equality of the declarations in order, whatever the identities. -/
def same (rs ss : RuleSet) : Bool :=
  Declaration.sameAll rs.declarations ss.declarations

def write (l : Layout) (rs : RuleSet) : String :=
  Declaration.writeAll l rs.declarations

def find? (rs : RuleSet) (id : RuleId) : Option Rule :=
  List.find? (·.id == id) rs

def position? (rs : RuleSet) (id : RuleId) : Option Nat :=
  rs.findIdx? (·.id == id)

def select (rs : RuleSet) (pattern : Option String) : List Rule :=
  rs.filter fun r => matchesPattern? pattern r.name

/-- The rule that counts for a name. -/
def last? (rs : RuleSet) (name : String) : Option Rule :=
  rs.reverse.find? (·.name == name)

/-- Puts a rule in front of another, or at the end if that one is not there. -/
def add (r : Rule) (before : Option RuleId) (rs : RuleSet) : RuleSet :=
  match before.bind (position? rs) with
  | some index => rs.insertIdx index r
  | none => rs ++ [r]

def edit (id : RuleId) (f : Declaration → Declaration) : RuleSet → RuleSet
  | [] => []
  | r :: rs => if r.id = id then r.edit f :: rs else r :: edit id f rs

def remove (id : RuleId) (rs : RuleSet) : RuleSet :=
  rs.filter (·.id != id)

def removeMatching (pattern : String) (rs : RuleSet) : RuleSet :=
  rs.filter fun r => !matchesPattern pattern r.name

/-- Puts rules in the place of one; `none` if it is not there. -/
def splice? (id : RuleId) (new : List Rule) (rs : RuleSet) : Option RuleSet :=
  (rs.position? id).map fun index => rs.take index ++ new ++ rs.drop (index + 1)

/-- Puts a rule in the place of the first old one, and drops the others. -/
def replaceWhere (isOld : Rule → Bool) (new : Rule) (rs : RuleSet) : RuleSet :=
  rs.takeWhile (!isOld ·) ++ new :: (rs.dropWhile (!isOld ·)).filter (!isOld ·)

/-- Puts a rule in the place of the rules with these identities; `none` if no one of them is
there. -/
def replace? (ids : List RuleId) (new : Rule) (rs : RuleSet) : Option RuleSet :=
  let isOld (r : Rule) := ids.contains r.id
  if rs.any isOld then some (rs.replaceWhere isOld new) else none

end RuleSet

/-- What counts of a rule set: each name once, with its last rule. -/
abbrev Cascade := List (String × Rule)

namespace Cascade

/-- Enters a rule. A name that is there keeps its place and gets the rule. -/
def put (r : Rule) : Cascade → Cascade
  | [] => [(r.name, r)]
  | entry :: entries => if entry.1 = r.name then (r.name, r) :: entries else entry :: put r entries

def ofRules (rs : List Rule) : Cascade :=
  rs.foldl (fun cascade r => cascade.put r) []

end Cascade

/-- The names among the rules that match, in order of first occurrence, each with its last rule. -/
def RuleSet.cascade (rs : RuleSet) (pattern : Option String) : Cascade :=
  .ofRules (rs.select pattern)

end Stylesheet
