import Stylesheet.Shorthand.Basic
/-!
Fonts: `font` is a style, a variant and a weight, of which each may be missing or `normal`, then the
size, with or without a line height, then the family and its fallbacks.
-/

namespace Stylesheet

namespace Font

def longhands : List String :=
  ["font-style", "font-variant", "font-weight", "font-size", "line-height", "font-family"]

def normal : Value :=
  .keyword "normal"

/-- Whether a component may only stand in front of the size. -/
def isModifier (v : Value) : Bool :=
  v.isKeyword "normal" || v.isFontStyle || v.isFontVariant || v.isFontWeight

/-- Whether a component is the size, with or without a line height. -/
def isSizePart : Value → Bool
  | .pair size _ => size.isFontSize
  | v => !isModifier v && v.isFontSize

/-- The size and the line height of a component. -/
def splitSize : Value → Value × Value
  | .pair size lineHeight => (size, lineHeight)
  | size => (size, normal)

/-- The first family with the components in front of it, and the fallbacks. -/
def splitFallbacks? : Value → Option (Value × List Value)
  | .list .comma [] => none
  | .list .comma (first :: fallbacks) => some (first, fallbacks)
  | v => some (v, [])

/-- A value with fallbacks behind it. -/
def withFallbacks (first : List Value) (fallbacks : List Value) : Value :=
  .commaList (.spaceList first :: fallbacks)

/-- The values of the longhands in a value, in their order. Size and family are needed. -/
def parts? (v : Value) : Option (List Value) := do
  let (head, fallbacks) ← splitFallbacks? v
  let modifiers := head.components.takeWhile (!isSizePart ·)
  match head.components.dropWhile (!isSizePart ·) with
  | size :: family =>
    if family.isEmpty then none
    else
      let (size, lineHeight) := splitSize size
      some [(modifiers.find? Value.isFontStyle).getD normal,
        (modifiers.find? Value.isFontVariant).getD normal,
        (modifiers.find? Value.isFontWeight).getD normal,
        size, lineHeight, withFallbacks family fallbacks]
  | [] => none

def expand? (d : Declaration) : Option (List Declaration) :=
  if d.name != "font" || d.value.isCssWide then none
  else (parts? d.value).map (List.zipWith d.derive longhands)

/-- Size and family with what is said in front of them. What is `normal` need not be said. -/
def value? (l : Longhands) : Option Value := do
  let size ← l.value? "font-size"
  let family ← l.value? "font-family"
  if l.any Value.isCssWide then none
  else
    let said (name : String) := (l.value? name).filter fun v => !v.isKeyword "normal"
    let modifiers := ["font-style", "font-variant", "font-weight"].filterMap said
    let size := match said "line-height" with
      | some lineHeight => .pair size lineHeight
      | none => size
    let (first, fallbacks) ← splitFallbacks? family
    some (withFallbacks (modifiers ++ size :: first.components) fallbacks)

end Font

namespace RuleSet

def expandFont (rs : RuleSet) : Fresh RuleSet :=
  rs.expandWith Font.expand?

def createFont (rs : RuleSet) : Fresh RuleSet :=
  rs.createWith "font" Font.longhands Font.value?

end RuleSet
end Stylesheet
