import Stylesheet.Proofs.Value.LetterCase
import Stylesheet.Shorthand.All
/-!
Expanding without regard to letter case. A component goes to the same longhand however its words are
written, and what is filled in is written in small letters; so it is the same whether words are put
in small letters before shorthands are expanded or afterwards. Main statement:
`RuleSet.expandAll_uncased`.
-/

namespace Stylesheet

open Value (uncased)

namespace Value

variable {p : Value → Bool} {v : Value} {vs : List Value}

theorem find?_uncased (h : ∀ v : Value, p v.uncased = p v) :
    (vs.map uncased).find? p = (vs.find? p).map uncased := by
  have hp : p ∘ uncased = p := funext h
  rw [List.find?_map, hp]

theorem getD_uncased (o : Option Value) {word : String} (h : Text.lower word = word) :
    (o.map uncased).getD (keyword word) = (o.getD (keyword word)).uncased := by
  cases o
  case none => exact congrArg keyword h.symm
  case some v => rfl

end Value

namespace Declaration

def uncased (d : Declaration) : Declaration :=
  { d with value := d.value.uncased }

theorem zipWith_derive_uncased (d : Declaration) (names : List String) (vs : List Value) :
    List.zipWith d.uncased.derive names (vs.map Value.uncased) =
      (List.zipWith d.derive names vs).map uncased := by
  rw [List.zipWith_map_right, List.map_zipWith]
  rfl

-- Whether words may be put in small letters before a declaration is taken apart or after.
def IsCaseless (expand? : Declaration → Option (List Declaration)) : Prop :=
  ∀ d : Declaration, expand? d.uncased = (expand? d).map (List.map uncased)

end Declaration

open Declaration (IsCaseless)

/-! ### The shorthands -/

namespace Border

theorem aspectOf?_uncased (v : Value) : aspectOf? v.uncased = aspectOf? v := by
  simp [aspectOf?]

theorem isCaseless_expand? : IsCaseless expand? := by
  intro d
  have hparts :
      (aspects.filterMap fun aspect =>
        (d.uncased.value.components.find? (aspectOf? · == some aspect)).map
          (d.uncased.derive (d.uncased.name ++ "-" ++ aspect.name))) =
      (aspects.filterMap fun aspect =>
        (d.value.components.find? (aspectOf? · == some aspect)).map
          (d.derive (d.name ++ "-" ++ aspect.name))).map Declaration.uncased := by
    rw [List.map_filterMap]
    refine congrArg (aspects.filterMap ·) (funext fun aspect => ?_)
    simp only [Declaration.uncased, Value.components_uncased]
    rw [Value.find?_uncased fun v => by rw [aspectOf?_uncased], Option.map_map, Option.map_map]
    rfl
  simp only [expand?, hparts, List.isEmpty_map]
  simp only [Declaration.uncased, Value.isCssWide_uncased, Value.isCommaList_uncased]
  split
  case isTrue => rfl
  case isFalse => split <;> rfl

end Border

namespace Sides

def map {α β : Type} (f : α → β) (sides : Sides α) : Sides β :=
  ⟨f sides.top, f sides.right, f sides.bottom, f sides.left⟩

theorem ofList?_uncased (vs : List Value) :
    ofList? (vs.map uncased) = (ofList? vs).map (map uncased) := by
  match vs with
  | [] | [_] | [_, _] | [_, _, _] | [_, _, _, _] => rfl
  | _ :: _ :: _ :: _ :: _ :: _ => rfl

theorem isCaseless_expand? : IsCaseless expand? := by
  intro d
  simp only [expand?, Declaration.uncased, Value.isCommaList_uncased, Value.components_uncased,
    ofList?_uncased]
  split
  case isTrue => rfl
  case isFalse =>
    rw [Option.map_map, Option.map_map]
    refine congrArg (Option.map · _) (funext fun sides => ?_)
    exact Declaration.zipWith_derive_uncased d (longhands d.name) sides.toList

end Sides

namespace Background

theorem aspectOf?_uncased (v : Value) : aspectOf? v.uncased = aspectOf? v := by
  simp [aspectOf?]

theorem positionOf_uncased (vs : List Value) :
    positionOf (vs.map uncased) = (positionOf vs).uncased := by
  match vs with
  | [] | [_] => rfl
  | v :: w :: vs => exact (Value.uncased_join .space (v :: w :: vs)).symm

theorem getD_find?_uncased (v : Value) (aspect : Aspect) {initial : String}
    (h : Text.lower initial = initial) :
    (v.uncased.components.find? (aspectOf? · == some aspect)).getD (.keyword initial) =
      ((v.components.find? (aspectOf? · == some aspect)).getD (.keyword initial)).uncased := by
  rw [Value.components_uncased, Value.find?_uncased fun v => by rw [aspectOf?_uncased],
    Value.getD_uncased _ h]

theorem filter_position_uncased (v : Value) :
    v.uncased.components.filter (aspectOf? · == some .position) =
      (v.components.filter (aspectOf? · == some .position)).map uncased := by
  simp [List.filter_map, Function.comp_def, aspectOf?_uncased]

theorem all_none_uncased (v : Value) : v.uncased.components.all (aspectOf? · == none) =
    v.components.all (aspectOf? · == none) := by
  simp [Function.comp_def, aspectOf?_uncased]

theorem isCaseless_expand? : IsCaseless expand? := by
  intro d
  have hcolor := getD_find?_uncased d.value .color (by decide : Text.lower "transparent" = _)
  have himage := getD_find?_uncased d.value .image (by decide : Text.lower "none" = _)
  have hrepetition := getD_find?_uncased d.value .repetition (by decide : Text.lower "repeat" = _)
  have hattachment := getD_find?_uncased d.value .attachment (by decide : Text.lower "scroll" = _)
  simp only [expand?, Declaration.uncased, Value.isCssWide_uncased, Value.isCommaList_uncased,
    all_none_uncased, hcolor, himage, hrepetition, hattachment, filter_position_uncased,
    positionOf_uncased]
  split
  case isTrue => rfl
  case isFalse =>
    split
    case isTrue => rfl
    case isFalse =>
      exact congrArg some (Declaration.zipWith_derive_uncased d longhands [_, _, _, _, _])

end Background

namespace Font

theorem isModifier_uncased (v : Value) : isModifier v.uncased = isModifier v := by
  simp [isModifier]

theorem isSizePart_uncased (v : Value) : isSizePart v.uncased = isSizePart v := by
  match v with
  | .pair size _ => exact Value.isFontSize_uncased size
  | .keyword w =>
    have hmodifier := isModifier_uncased (.keyword w)
    have hsize := Value.isFontSize_uncased (.keyword w)
    simp only [Value.uncased] at hmodifier hsize
    simp only [Value.uncased, isSizePart, hmodifier, hsize]
  | .size _ | .hex _ | .string _ | .url _ | .function .. | .list .. => rfl

theorem splitSize_uncased (v : Value) :
    splitSize v.uncased = ((splitSize v).1.uncased, (splitSize v).2.uncased) := by
  match v with
  | .pair .. | .keyword _ | .size _ | .hex _ | .string _ | .url _ | .function .. | .list .. => rfl

theorem splitFallbacks?_uncased (v : Value) : splitFallbacks? v.uncased =
    (splitFallbacks? v).map fun parts => (parts.1.uncased, parts.2.map uncased) := by
  match v with
  | .list .comma (first :: fallbacks) =>
    simp [Value.uncased, Value.uncasedItems, splitFallbacks?, Value.uncasedItems_eq]
  | .list .comma [] | .list .space _ => rfl
  | .pair .. | .keyword _ | .size _ | .hex _ | .string _ | .url _ | .function .. => rfl

theorem withFallbacks_uncased (family fallbacks : List Value) :
    withFallbacks (family.map uncased) (fallbacks.map uncased) =
      (withFallbacks family fallbacks).uncased := by
  simp only [withFallbacks, Value.commaList, Value.spaceList, Value.uncased_join, List.map_cons]

theorem parts?_uncased (v : Value) : parts? v.uncased = (parts? v).map (List.map uncased) := by
  have hp : (!isSizePart ·) ∘ uncased = (!isSizePart ·) :=
    funext fun v => congrArg not (isSizePart_uncased v)
  unfold parts?
  rw [splitFallbacks?_uncased]
  cases splitFallbacks? v
  case none => rfl
  case some parts =>
    simp only [Option.map_some, Option.bind_eq_bind, Option.bind_some, Value.components_uncased,
      List.takeWhile_map, List.dropWhile_map, hp]
    cases parts.1.components.dropWhile (!isSizePart ·)
    case nil => rfl
    case cons size family =>
      simp only [List.map_cons, List.isEmpty_map, splitSize_uncased, withFallbacks_uncased,
        Value.find?_uncased Value.isFontStyle_uncased,
        Value.find?_uncased Value.isFontVariant_uncased,
        Value.find?_uncased Value.isFontWeight_uncased]
      simp only [normal, Value.getD_uncased _ (by decide : Text.lower "normal" = "normal")]
      split <;> rfl

theorem isCaseless_expand? : IsCaseless expand? := by
  intro d
  simp only [expand?, Declaration.uncased, Value.isCssWide_uncased, parts?_uncased]
  split
  case isTrue => rfl
  case isFalse =>
    rw [Option.map_map, Option.map_map]
    refine congrArg (Option.map · _) (funext fun values => ?_)
    exact Declaration.zipWith_derive_uncased d longhands values

end Font

/-! ### Rule sets -/

def Rule.uncased (r : Rule) : Rule :=
  r.edit Declaration.uncased

theorem Rule.freshAll_uncased (ds : List Declaration) :
    freshAll (ds.map Declaration.uncased) = List.map uncased <$> freshAll ds := by
  induction ds
  case nil => rfl
  case cons d ds ih =>
    have hd : fresh d.uncased = uncased <$> fresh d := rfl
    simp only [freshAll, List.map_cons, hd, ih, map_bind, bind_map_left, map_pure]

namespace RuleSet

-- The rules with the words of their values in small letters.
def uncased (rs : RuleSet) : RuleSet :=
  rs.map Rule.uncased

theorem expandWith_uncased {expand? : Declaration → Option (List Declaration)}
    (h : IsCaseless expand?) (rs : RuleSet) :
    expandWith expand? rs.uncased = uncased <$> expandWith expand? rs := by
  induction rs
  case nil => rfl
  case cons r rs ih =>
    have hr : expand? r.uncased.toDeclaration = _ := h r.toDeclaration
    have hcons : uncased (r :: rs) = r.uncased :: uncased rs := rfl
    simp only [hcons, expandWith, hr, ih]
    cases expand? r.toDeclaration
    case none => simp [uncased]
    case some ds => simp [Rule.freshAll_uncased, uncased]

-- Words may be put in small letters before all shorthands are expanded or after: the rules are the
-- same, and so are the identities that are given to the new ones.
theorem expandAll_uncased (rs : RuleSet) (next : RuleId) :
    rs.uncased.expandAll.run next =
      ((rs.expandAll.run next).1.uncased, (rs.expandAll.run next).2) := by
  have h : rs.uncased.expandAll = uncased <$> rs.expandAll := by
    simp only [expandAll, expandBorder, expandSides, expandFont, expandBackground,
      expandWith_uncased Border.isCaseless_expand?, expandWith_uncased Sides.isCaseless_expand?,
      expandWith_uncased Font.isCaseless_expand?, expandWith_uncased Background.isCaseless_expand?,
      map_bind, bind_map_left]
  exact congrArg (fun work : Fresh RuleSet => work.run next) h

end RuleSet
end Stylesheet
