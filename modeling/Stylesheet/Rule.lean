import Stylesheet.Declaration
/-!
Rules: declarations with an identity, by which one can be addressed among equal ones. Identities
are numbers given out in turn.
-/

namespace Stylesheet

abbrev RuleId := Nat

structure Rule extends Declaration where
  id : RuleId

/-- Work that may need new identities. The state is the next one to give out. -/
abbrev Fresh := StateM RuleId

namespace Rule

/-- A rule with a new identity. -/
def fresh (d : Declaration) : Fresh Rule :=
  modifyGet fun next => (⟨d, next⟩, next + 1)

def freshAll : List Declaration → Fresh (List Rule)
  | [] => return []
  | d :: ds => return (← fresh d) :: (← freshAll ds)

/-- The rule with its declaration changed; it stays the same rule. -/
def edit (r : Rule) (f : Declaration → Declaration) : Rule :=
  { r with toDeclaration := f r.toDeclaration }

/-- Equality of declarations, whatever the identities. -/
def same (r s : Rule) : Bool :=
  r.toDeclaration.same s.toDeclaration

end Rule
end Stylesheet
