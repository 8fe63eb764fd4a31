import Stylesheet.Shorthand.Basic
/-!
Borders: `border` and the border of each side are a width, a style and a color, in any order.
-/

namespace Stylesheet

namespace Border

def shorthands : List String :=
  ["border", "border-top", "border-right", "border-bottom", "border-left"]

inductive Aspect where
  | width
  | style
  | color
deriving DecidableEq

def Aspect.name : Aspect → String
  | width => "width"
  | style => "style"
  | color => "color"

def aspects : List Aspect :=
  [.width, .style, .color]

def longhands : List String :=
  aspects.map fun aspect => "border-" ++ aspect.name

/-- What a component of a border says. -/
def aspectOf? (v : Value) : Option Aspect :=
  if v.isBorderStyle then some .style
  else if v.isColor then some .color
  else if v.isBorderWidth then some .width
  else none

/-- The first component for each aspect. Aspects that the value does not have are left out. -/
def expand? (d : Declaration) : Option (List Declaration) :=
  if !shorthands.contains d.name || d.value.isCssWide || d.value.isCommaList then none
  else
    let parts := aspects.filterMap fun aspect =>
      (d.value.components.find? (aspectOf? · == some aspect)).map
        (d.derive (d.name ++ "-" ++ aspect.name))
    if parts.isEmpty then none else some parts

/-- The aspects there are, in order, none of which may differ from side to side. -/
def value? (l : Longhands) : Option Value :=
  if l.any fun v => v.isList || v.isCssWide then none
  else some (.spaceList (longhands.filterMap l.value?))

end Border

namespace RuleSet

def expandBorder (rs : RuleSet) : Fresh RuleSet :=
  rs.expandWith Border.expand?

def createBorder (rs : RuleSet) : Fresh RuleSet :=
  rs.createWith "border" Border.longhands Border.value?

end RuleSet
end Stylesheet
