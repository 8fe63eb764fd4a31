import Stylesheet.Shorthand.Basic
/-!
Properties with a value for each side: margins, paddings, and the widths, styles and colors of
borders. One to four values stand for the four sides.
-/

namespace Stylesheet

structure Sides (α : Type) where
  top : α
  right : α
  bottom : α
  left : α
deriving DecidableEq

namespace Sides

variable {α : Type}

/-- The sides that one to four values stand for. The left side is as the right one and the bottom
as the top, if they have no value of their own. -/
def ofList? : List α → Option (Sides α)
  | [all] => some ⟨all, all, all, all⟩
  | [vertical, horizontal] => some ⟨vertical, horizontal, vertical, horizontal⟩
  | [top, horizontal, bottom] => some ⟨top, horizontal, bottom, horizontal⟩
  | [top, right, bottom, left] => some ⟨top, right, bottom, left⟩
  | _ => none

def toList (s : Sides α) : List α :=
  [s.top, s.right, s.bottom, s.left]

/-- The fewest values that stand for the sides. -/
def minimal [BEq α] (s : Sides α) : List α :=
  if s.right == s.left then
    if s.top == s.bottom then
      if s.top == s.right then [s.top] else [s.top, s.right]
    else [s.top, s.right, s.bottom]
  else s.toList

/-- The sides in the order of `toList`. -/
def names : List String :=
  ["top", "right", "bottom", "left"]

/-- The properties that have a value for each side. -/
def families : List String :=
  ["margin", "padding", "border-width", "border-style", "border-color"]

/-- The property for one side of a family. For borders the side comes in front of the aspect. -/
def longhand (family side : String) : String :=
  let border := "border-"
  if border.toList.isPrefixOf family.toList then
    border ++ side ++ "-" ++ String.ofList (family.toList.drop border.length)
  else family ++ "-" ++ side

def longhands (family : String) : List String :=
  names.map (longhand family)

/-- One rule a side. -/
def expand? (d : Declaration) : Option (List Declaration) :=
  if !families.contains d.name || d.value.isCommaList then none
  else (ofList? d.value.components).map fun sides =>
    List.zipWith d.derive (longhands d.name) sides.toList

/-- The shortest value for four sides. A keyword that every property takes stands only alone. -/
def value? (family : String) (l : Longhands) : Option Value := do
  let top ← l.value? (longhand family "top")
  let right ← l.value? (longhand family "right")
  let bottom ← l.value? (longhand family "bottom")
  let left ← l.value? (longhand family "left")
  if l.any Value.isList then none
  else
    let values := (Sides.mk top right bottom left).minimal
    if 1 < values.length && values.any Value.isCssWide then none
    else some (.spaceList values)

end Sides

namespace RuleSet

def expandSides (rs : RuleSet) : Fresh RuleSet :=
  rs.expandWith Sides.expand?

def createFamilies : List String → RuleSet → Fresh RuleSet
  | [], rs => return rs
  | family :: families, rs => do
    let rs ← rs.createWith family (Sides.longhands family) (Sides.value? family)
    createFamilies families rs

def createSides (rs : RuleSet) : Fresh RuleSet :=
  createFamilies Sides.families rs

end RuleSet
end Stylesheet
