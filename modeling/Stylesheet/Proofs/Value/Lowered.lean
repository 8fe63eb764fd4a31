import Stylesheet.Proofs.Text.Case
import Stylesheet.Proofs.Value.Clean
/-!
Values up to the letter case of their keywords. Main statements: `Value.same_lowered`,
`Value.lowered_of_isKeyword`.
-/

namespace Stylesheet.Value

variable {v w : Value} {word : String}

def lowerLeaf : Value → Value
  | keyword word => keyword (Text.lower word)
  | v => v

-- The value with its keywords in small letters, those in functions included.
def lowered (v : Value) : Value :=
  v.mapLeaves lowerLeaf

mutual

theorem same_lowered {v w : Value} (h : v.same w) : v.lowered.same w.lowered := by
  match v with
  | size _ | hex _ | string _ | url _ =>
    cases w <;> simp only [same, reduceCtorEq] at h
    simpa only [lowered, mapLeaves, lowerLeaf, same] using h
  | keyword _ =>
    cases w <;> simp only [same, reduceCtorEq] at h
    simp [lowered, mapLeaves, lowerLeaf, same, eq_of_beq h]
  | function _ _ _ =>
    cases w <;> simp only [same, reduceCtorEq] at h
    simp only [Bool.and_eq_true] at h
    simpa [lowered, mapLeaves, same, h.1] using sameArguments_lowered h.2
  | pair _ _ =>
    cases w <;> simp only [same, reduceCtorEq] at h
    simp only [Bool.and_eq_true] at h
    simpa [lowered, mapLeaves, same] using ⟨same_lowered h.1, same_lowered h.2⟩
  | list _ _ =>
    cases w <;> simp only [same, reduceCtorEq] at h
    simp only [Bool.and_eq_true] at h
    simpa [lowered, mapLeaves, same, h.1] using sameItems_lowered h.2

theorem sameArguments_lowered {a b : Option Value} (h : sameArguments a b) :
    sameArguments (mapArguments lowerLeaf a) (mapArguments lowerLeaf b) := by
  match a with
  | none =>
    cases b <;> simp only [sameArguments, reduceCtorEq] at h
    rfl
  | some _ =>
    cases b <;> simp only [sameArguments, reduceCtorEq] at h
    exact same_lowered h

theorem sameItems_lowered {vs ws : List Value} (h : sameItems vs ws) :
    sameItems (mapItems lowerLeaf vs) (mapItems lowerLeaf ws) := by
  match vs with
  | [] =>
    cases ws <;> simp only [sameItems, reduceCtorEq] at h
    rfl
  | _ :: _ =>
    cases ws <;> simp only [sameItems, reduceCtorEq] at h
    simp only [Bool.and_eq_true] at h
    simpa [mapItems, sameItems] using ⟨same_lowered h.1, sameItems_lowered h.2⟩

end

-- A keyword is no more than the word it is, however it is written.
theorem lowered_of_isKeyword (h : v.isKeyword word) : v.lowered = (keyword word).lowered := by
  cases v
  case keyword w => exact congrArg keyword (eq_of_beq h)
  all_goals cases h

end Stylesheet.Value
