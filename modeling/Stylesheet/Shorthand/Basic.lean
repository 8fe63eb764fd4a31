import Stylesheet.Keyword
import Stylesheet.RuleSet
/-!
Shorthands and their parts. To expand a shorthand, each rule of its name gives way to the rules of
its parts. To create one, the rules of the parts give way to one rule in the place of the first,
unless they differ in importance or cannot be put together; then all stay. A rule that gives way
passes its importance and position on.
-/

namespace Stylesheet

namespace RuleSet

/-- Puts rules in the place of each one that `expand?` takes apart. -/
def expandWith (expand? : Declaration → Option (List Declaration)) : RuleSet → Fresh RuleSet
  | [] => return []
  | r :: rs => do
    let new ← match expand? r.toDeclaration with
      | some parts => Rule.freshAll parts
      | none => pure [r]
    return new ++ (← expandWith expand? rs)

end RuleSet

/-- The rules that a shorthand is made of. -/
structure Longhands where
  first : Rule
  /-- The rules that count, each under its name. -/
  winners : Cascade

namespace Longhands

/-- The rules of these names, if there are any and they are all important or all not. -/
def collect? (names : List String) (rs : RuleSet) : Option Longhands :=
  match rs.filter fun r => names.contains r.name with
  | [] => none
  | first :: rest =>
    if rest.all (·.important == first.important) then
      some ⟨first, .ofRules (first :: rest)⟩
    else none

def value? (l : Longhands) (name : String) : Option Value :=
  (l.winners.lookup name).map (·.value)

def any (l : Longhands) (p : Value → Bool) : Bool :=
  l.winners.any fun entry => p entry.2.value

end Longhands

namespace RuleSet

/-- Makes one rule of the rules of these names, if `value?` finds its value. -/
def createWith (shorthand : String) (names : List String) (value? : Longhands → Option Value)
    (rs : RuleSet) : Fresh RuleSet :=
  match Longhands.collect? names rs with
  | none => return rs
  | some longhands =>
    match value? longhands with
    | none => return rs
    | some value => do
      let new ← Rule.fresh (longhands.first.derive shorthand value)
      return rs.replaceWhere (fun r => names.contains r.name) new

end RuleSet
end Stylesheet
