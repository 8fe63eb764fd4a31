import Stylesheet.Shorthand.Basic
/-!
Backgrounds: `background` is a color, an image, its repetition, attachment and position, in any
order, each with an initial value if it is missing. Backgrounds of several layers stay as they are.
-/

namespace Stylesheet

namespace Background

def longhands : List String :=
  ["background-color", "background-image", "background-repeat", "background-attachment",
   "background-position"]

inductive Aspect where
  | color
  | image
  | repetition
  | attachment
  | position
deriving DecidableEq

/-- What a component of a background says. -/
def aspectOf? (v : Value) : Option Aspect :=
  if v.isColor then some .color
  else if v.isImage then some .image
  else if v.isBackgroundRepeat then some .repetition
  else if v.isBackgroundAttachment then some .attachment
  else if v.isBackgroundPosition then some .position
  else none

def initialPosition : Value :=
  let zero := .size ⟨.ofNat 0, some "%"⟩
  .list .space [zero, zero]

def isZeroOffset : Value → Bool
  | .size s => s.value.isZero && (s.unit == none || s.unit == some "%")
  | _ => false

/-- Whether a position is the upper left corner, given as two offsets. -/
def isInitialPosition (v : Value) : Bool :=
  v.components.length == 2 && v.components.all isZeroOffset

/-- The position of one or more components. One alone counts for both directions. -/
def positionOf : List Value → Value
  | [] => initialPosition
  | [v] => .spaceList [v, v]
  | vs => .spaceList vs

/-- The first component for each aspect, and all of the position. -/
def expand? (d : Declaration) : Option (List Declaration) :=
  let components := d.value.components
  let first (aspect : Aspect) (initial : String) :=
    (components.find? (aspectOf? · == some aspect)).getD (.keyword initial)
  if d.name != "background" || d.value.isCssWide || d.value.isCommaList then none
  else if components.all (aspectOf? · == none) then none
  else some <| List.zipWith d.derive longhands
    [first .color "transparent", first .image "none", first .repetition "repeat",
     first .attachment "scroll",
     positionOf (components.filter (aspectOf? · == some .position))]

/-- The components of a position as `background` has them. -/
def positionParts (v : Value) : List Value :=
  if isInitialPosition v then []
  else
    match v.components with
    | [first, second] =>
      if first.isKeyword "center" && second.isKeyword "center" then [.keyword "center"]
      else [first, second]
    | components => components

/-- What is there and not initial; a color is said in any case. -/
def value? (l : Longhands) : Option Value :=
  if l.any fun v => v.isCommaList || v.isCssWide then none
  else
    let said (name initial : String) := (l.value? name).filter fun v => !v.isKeyword initial
    let parts := (l.value? "background-color").toList ++ (said "background-image" "none").toList ++
      (said "background-repeat" "repeat").toList ++
      (said "background-attachment" "scroll").toList ++
      (l.value? "background-position").toList.flatMap positionParts
    some (if parts.isEmpty then .keyword "none" else .spaceList parts)

end Background

namespace RuleSet

def expandBackground (rs : RuleSet) : Fresh RuleSet :=
  rs.expandWith Background.expand?

def createBackground (rs : RuleSet) : Fresh RuleSet :=
  rs.createWith "background" Background.longhands Background.value?

end RuleSet
end Stylesheet
