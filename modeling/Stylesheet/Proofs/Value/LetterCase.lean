import Stylesheet.Keyword
import Stylesheet.Proofs.Text.Case
/-!
Values without letter case: their keywords and the names of their functions in small letters, at any
depth. No class of values tells a value from the one without letter case, and its components are
those of the value. Main statements: `Value.isKeywordOf_uncased`, `Value.components_uncased`.
-/

namespace Stylesheet

namespace Text

@[simp] theorem sameWord_lower (s t : String) : sameWord (lower s) t = sameWord s t := by
  rw [sameWord, lower_lower, sameWord]

@[simp] theorem isAmong_lower (words : List String) (s : String) :
    isAmong words (lower s) = isAmong words s := by
  simp only [isAmong, sameWord, lower_lower]

end Text

namespace Value

variable {v : Value} {vs : List Value}

mutual

-- The value with its keywords and the names of its functions in small letters, at any depth.
def uncased : Value → Value
  | keyword word => keyword (Text.lower word)
  | function kind name arguments => function kind (Text.lower name) (uncasedArguments arguments)
  | pair first second => pair first.uncased second.uncased
  | list separator items => list separator (uncasedItems items)
  | v => v

def uncasedArguments : Option Value → Option Value
  | some v => some v.uncased
  | none => none

def uncasedItems : List Value → List Value
  | v :: vs => v.uncased :: uncasedItems vs
  | [] => []

end

theorem uncasedItems_eq (vs : List Value) : uncasedItems vs = vs.map uncased := by
  induction vs
  case nil => rfl
  case cons v vs ih => exact congrArg (v.uncased :: ·) ih

/-! ### Classes -/

@[simp] theorem isKeyword_uncased (v : Value) (word : String) :
    v.uncased.isKeyword word = v.isKeyword word := by
  cases v
  case keyword w => exact Text.sameWord_lower w word
  all_goals rfl

@[simp] theorem isKeywordOf_uncased (v : Value) (words : List String) :
    v.uncased.isKeywordOf words = v.isKeywordOf words := by
  cases v
  case keyword w => exact Text.isAmong_lower words w
  all_goals rfl

@[simp] theorem isSize_uncased (v : Value) : v.uncased.isSize = v.isSize := by
  cases v <;> rfl

@[simp] theorem isCommaList_uncased (v : Value) : v.uncased.isCommaList = v.isCommaList := by
  match v with
  | list .space _ | list .comma _ => rfl
  | size _ | keyword _ | hex _ | string _ | url _ | function .. | pair .. => rfl

@[simp] theorem isCssWide_uncased (v : Value) : v.uncased.isCssWide = v.isCssWide :=
  isKeywordOf_uncased v _

@[simp] theorem isBorderStyle_uncased (v : Value) : v.uncased.isBorderStyle = v.isBorderStyle :=
  isKeywordOf_uncased v _

@[simp] theorem isBorderWidth_uncased (v : Value) : v.uncased.isBorderWidth = v.isBorderWidth := by
  simp [isBorderWidth]

@[simp] theorem isColor_uncased (v : Value) : v.uncased.isColor = v.isColor := by
  cases v
  case keyword w => exact isKeywordOf_uncased (keyword w) _
  all_goals rfl

@[simp] theorem isImage_uncased (v : Value) : v.uncased.isImage = v.isImage := by
  match v with
  | function .plain name _ => simp [uncased, isImage, isImageFunction, Text.lower_lower]
  | keyword w => exact isKeyword_uncased (keyword w) _
  | function .color _ _ | size _ | hex _ | string _ | url _ | pair .. | list .. => rfl

@[simp] theorem isFontStyle_uncased (v : Value) : v.uncased.isFontStyle = v.isFontStyle :=
  isKeywordOf_uncased v _

@[simp] theorem isFontVariant_uncased (v : Value) : v.uncased.isFontVariant = v.isFontVariant :=
  isKeywordOf_uncased v _

@[simp] theorem isFontWeight_uncased (v : Value) : v.uncased.isFontWeight = v.isFontWeight := by
  cases v
  case keyword w => exact isKeywordOf_uncased (keyword w) _
  all_goals rfl

@[simp] theorem isFontSize_uncased (v : Value) : v.uncased.isFontSize = v.isFontSize := by
  simp [isFontSize]

@[simp] theorem isBackgroundRepeat_uncased (v : Value) :
    v.uncased.isBackgroundRepeat = v.isBackgroundRepeat :=
  isKeywordOf_uncased v _

@[simp] theorem isBackgroundAttachment_uncased (v : Value) :
    v.uncased.isBackgroundAttachment = v.isBackgroundAttachment :=
  isKeywordOf_uncased v _

@[simp] theorem isBackgroundPosition_uncased (v : Value) :
    v.uncased.isBackgroundPosition = v.isBackgroundPosition := by
  simp [isBackgroundPosition]

/-! ### Components -/

@[simp] theorem components_uncased (v : Value) :
    v.uncased.components = v.components.map uncased := by
  match v with
  | list .space items => exact uncasedItems_eq items
  | list .comma _ | size _ | keyword _ | hex _ | string _ | url _ | function .. | pair .. => rfl

theorem uncased_join (separator : Separator) (vs : List Value) :
    (join separator vs).uncased = join separator (vs.map uncased) := by
  match vs with
  | [] | [_] => rfl
  | v :: w :: vs => simp [join, uncased, uncasedItems_eq]

end Value
end Stylesheet
