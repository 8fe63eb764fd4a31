import Stylesheet.Proofs.RuleSet.Expansion
import Stylesheet.Proofs.Shorthand.Font
/-!
What a font is taken apart to, read component by component: the first style, variant and weight in
front of the size, the size, and all that is behind it. Main statement: `RuleSet.expandFont_exact`.
-/

namespace Stylesheet

namespace Font

variable {v : Value} {vs : List Value}

/-! ### Component by component -/

-- The modifiers that were found, the first of each kind.
structure Slots where
  style : Option Value := none
  variant : Option Value := none
  weight : Option Value := none

-- Goes through the components up to the size, and leaves those behind it.
def scan : Slots → List Value → Option (Slots × (Value × Option Value) × List Value)
  | _, [] => none
  | s, v :: rest =>
    if v.isKeyword "normal" then scan s rest
    else if v.isFontStyle then scan { s with style := s.style.or v } rest
    else if v.isFontVariant then scan { s with variant := s.variant.or v } rest
    else if v.isFontWeight then scan { s with weight := s.weight.or v } rest
    else if v.isFontSize then some (s, (v, none), rest)
    else
      match v with
      | .pair first second =>
        if first.isFontSize then some (s, (first, some second), rest) else scan s rest
      | _ => scan s rest

-- What is found among further components, for what was not found before.
def Slots.fill (s : Slots) (modifiers : List Value) : Slots where
  style := s.style.or (modifiers.find? Value.isFontStyle)
  variant := s.variant.or (modifiers.find? Value.isFontVariant)
  weight := s.weight.or (modifiers.find? Value.isFontWeight)

def halves : Value → Value × Option Value
  | .pair first second => (first, some second)
  | v => (v, none)

theorem not_modifier_of_normal (h : v.isKeyword "normal") :
    v.isFontStyle = false ∧ v.isFontVariant = false ∧ v.isFontWeight = false := by
  rw [Value.isKeyword_eq] at h
  refine ⟨Value.not_isKeywordOf (by decide) h, Value.not_isKeywordOf (by decide) h, ?_⟩
  cases v
  case keyword word =>
    exact @Value.not_isKeywordOf ["normal"] Keyword.fontWeights (by decide) _ h
  all_goals cases h

@[simp] theorem Slots.fill_nil (s : Slots) : s.fill [] = s := by
  simp [fill]

theorem Slots.fill_append (s : Slots) (vs ws : List Value) :
    s.fill (vs ++ ws) = (s.fill vs).fill ws := by
  simp [fill, Option.or_assoc]

-- Whether a component says the size: it is none of what may stand in front, and a size alone or in
-- front of a slash.
def saysSize (v : Value) : Bool :=
  !isModifier v && (halves v).1.isFontSize

theorem isSizePart_eq (v : Value) : isSizePart v = saysSize v := by
  cases v <;> rfl

theorem scan_of_saysSize (s : Slots) (h : saysSize v) :
    scan s (v :: vs) = some (s, halves v, vs) := by
  simp only [saysSize, isModifier, Bool.and_eq_true, Bool.not_eq_true', Bool.or_eq_false_iff] at h
  obtain ⟨⟨⟨⟨hnormal, hstyle⟩, hvariant⟩, hweight⟩, hsize⟩ := h
  simp only [scan, hnormal, hstyle, hvariant, hweight, Bool.false_eq_true, if_false]
  cases v
  case pair first second =>
    have hpair : (Value.pair first second).isFontSize = false := rfl
    simp only [halves] at hsize ⊢
    simp only [hpair, hsize, Bool.false_eq_true, if_false, if_true]
  all_goals
    simp only [halves] at hsize ⊢
    simp only [hsize, if_true]

-- Anything else is passed over, and noted down if it is the first of its kind.
theorem scan_of_not_saysSize (s : Slots) (h : saysSize v = false) :
    scan s (v :: vs) = scan (s.fill [v]) vs := by
  rw [scan.eq_def]
  dsimp only
  split
  case isTrue hnormal =>
    obtain ⟨hstyle, hvariant, hweight⟩ := not_modifier_of_normal hnormal
    simp [Slots.fill, hstyle, hvariant, hweight]
  case isFalse hnormal =>
    split
    case isTrue hstyle =>
      simp [Slots.fill, hstyle, isFontVariant_of_isFontStyle hstyle,
        isFontWeight_of_isFontStyle hstyle]
    case isFalse hstyle =>
      split
      case isTrue hvariant =>
        simp [Slots.fill, hstyle, hvariant, isFontWeight_of_isFontVariant hvariant]
      case isFalse hvariant =>
        split
        case isTrue hweight => simp [Slots.fill, hstyle, hvariant, hweight]
        case isFalse hweight =>
          have hfill : s.fill [v] = s := by simp [Slots.fill, hstyle, hvariant, hweight]
          have hsize : (halves v).1.isFontSize = false := by
            simpa [saysSize, isModifier, hnormal, hstyle, hvariant, hweight] using h
          rw [hfill]
          cases v
          case pair first second =>
            have hpair : (Value.pair first second).isFontSize = false := rfl
            simp only [halves] at hsize
            simp only [hpair, hsize, Bool.false_eq_true, if_false]
          all_goals
            simp only [halves] at hsize
            simp only [hsize, Bool.false_eq_true, if_false]

theorem scan_eq (s : Slots) (vs : List Value) :
    scan s vs =
      match vs.dropWhile (!saysSize ·) with
      | [] => none
      | sized :: rest => some (s.fill (vs.takeWhile (!saysSize ·)), halves sized, rest) := by
  induction vs generalizing s
  case nil => rfl
  case cons v vs ih =>
    cases h : saysSize v
    case true => simp [scan_of_saysSize s h, h]
    case false =>
      rw [scan_of_not_saysSize s h, ih]
      simp only [List.dropWhile_cons, List.takeWhile_cons, h, Bool.not_false, if_true]
      rw [← List.singleton_append (l := vs.takeWhile _), Slots.fill_append]

theorem splitSize_eq (v : Value) : splitSize v = ((halves v).1, (halves v).2.getD normal) := by
  cases v <;> rfl

-- The values of the longhands, component by component.
def scanParts? (v : Value) : Option (List Value) := do
  let (head, fallbacks) ← splitFallbacks? v
  let (slots, (size, lineHeight), family) ← scan {} head.components
  if family.isEmpty then none
  else
    some [slots.style.getD normal, slots.variant.getD normal, slots.weight.getD normal, size,
      lineHeight.getD normal,
      if fallbacks.isEmpty then .spaceList family
      else .commaList (.spaceList family :: fallbacks)]

theorem scanParts?_eq (v : Value) : scanParts? v = parts? v := by
  unfold scanParts? parts?
  rw [show isSizePart = saysSize from funext isSizePart_eq]
  refine Option.bind_congr fun ⟨head, fallbacks⟩ _ => ?_
  simp only [scan_eq]
  cases head.components.dropWhile (!saysSize ·)
  case nil => rfl
  case cons sized family =>
    have hfamily : (if fallbacks.isEmpty then .spaceList family
        else .commaList (.spaceList family :: fallbacks)) = withFallbacks family fallbacks := by
      cases fallbacks <;> rfl
    simp only [bind, Option.bind_some, hfamily, splitSize_eq, Slots.fill, Option.none_or]

-- The declarations that a font is taken apart to, component by component.
def expandScanned? (d : Declaration) : Option (List Declaration) :=
  if d.name != "font" || d.value.isCssWide then none
  else (scanParts? d.value).map (List.zipWith d.derive longhands)

theorem expandScanned?_eq : expandScanned? = expand? := by
  funext d
  rw [expandScanned?, expand?, scanParts?_eq]

/-! ### What is found -/

-- The components among which the size is looked for: those up to the first comma.
def head : Value → List Value
  | .list .comma (first :: _) => first.components
  | v => v.components

-- The families: what is behind the size, and what is behind the first comma.
def familyOf (behind : List Value) : Value → Value
  | .list .comma (_ :: further) => .list .comma (.spaceList behind :: further)
  | _ => .spaceList behind

-- What is in the place of a font: the size is the first that is found, the style, variant and
-- weight are the first in front of it, and all that is behind it is the family.
inductive TakenApart (d : Declaration) : List Declaration → Prop
  | intro {front behind : List Value} {sized : Value} (hwide : d.value.isCssWide = false)
    (hhead : head d.value = front ++ sized :: behind)
    (hfront : ∀ v ∈ front, saysSize v = false) (hsized : saysSize sized) (hbehind : behind ≠ []) :
    TakenApart d
      [d.derive "font-style" ((front.find? Value.isFontStyle).getD normal),
       d.derive "font-variant" ((front.find? Value.isFontVariant).getD normal),
       d.derive "font-weight" ((front.find? Value.isFontWeight).getD normal),
       d.derive "font-size" (halves sized).1,
       d.derive "line-height" ((halves sized).2.getD normal),
       d.derive "font-family" (familyOf behind d.value)]

-- A comma list that was read has further items, and any other value none.
theorem exists_splitFallbacks? (hv : Value.hasShape .whole v) : ∃ first fallbacks,
    splitFallbacks? v = some (first, fallbacks) ∧ first.components = head v ∧
      ∀ behind, withFallbacks behind fallbacks = familyOf behind v := by
  match v with
  | .list .comma (first :: second :: further) =>
    exact ⟨first, second :: further, rfl, rfl, fun _ => rfl⟩
  | .list .comma [] | .list .comma [_] => simp [Value.hasShape] at hv
  | .list .space _ | .size _ | .keyword _ | .hex _ | .string _ | .url _ | .function .. | .pair .. =>
    exact ⟨_, [], rfl, rfl, fun _ => rfl⟩

theorem parts?_eq_some_iff (hv : Value.hasShape .whole v) {values : List Value} :
    parts? v = some values ↔ ∃ front sized behind, head v = front ++ sized :: behind ∧
      (∀ v ∈ front, saysSize v = false) ∧ saysSize sized ∧ behind ≠ [] ∧
      values = [(front.find? Value.isFontStyle).getD normal,
        (front.find? Value.isFontVariant).getD normal,
        (front.find? Value.isFontWeight).getD normal, (halves sized).1,
        (halves sized).2.getD normal, familyOf behind v] := by
  obtain ⟨first, fallbacks, hsplit, hcomponents, hfamily⟩ := exists_splitFallbacks? hv
  simp only [parts?, hsplit, bind, Option.bind_some, hcomponents, splitSize_eq, hfamily,
    show isSizePart = saysSize from funext isSizePart_eq]
  constructor
  case mp =>
    intro h
    have happend := @List.takeWhile_append_dropWhile _ (!saysSize ·) (head v)
    have hstop := List.head?_dropWhile_not (!saysSize ·) (head v)
    split at h
    case h_2 => cases h
    case h_1 sized behind hdrop =>
      rw [hdrop] at happend hstop
      obtain ⟨hbehind, hvalues⟩ := Option.ite_none_left_eq_some.mp h
      refine ⟨_, sized, behind, happend.symm, fun v hv => ?_, by simpa using hstop,
        by simpa using hbehind, (Option.some.inj hvalues).symm⟩
      simpa using List.all_eq_true.mp List.all_takeWhile v hv
  case mpr =>
    rintro ⟨front, sized, behind, hhead, hfront, hsized, hbehind, rfl⟩
    have hpass : ∀ v ∈ front, (!saysSize v) = true := by simpa using hfront
    rw [hhead, List.takeWhile_append_of_pos hpass, List.dropWhile_append_of_pos hpass]
    simp [hsized, hbehind]

theorem expand?_eq_some_iff {d : Declaration} (hn : d.name = "font")
    (hv : Value.hasShape .whole d.value) {ds : List Declaration} :
    expand? d = some ds ↔ TakenApart d ds := by
  constructor
  case mp =>
    intro h
    simp only [expand?, hn, bne_self_eq_false, Bool.false_or, Option.ite_none_left_eq_some,
      Bool.not_eq_true, Option.map_eq_some_iff] at h
    obtain ⟨hwide, values, hvalues, rfl⟩ := h
    obtain ⟨front, sized, behind, hhead, hfront, hsized, hbehind, rfl⟩ :=
      (parts?_eq_some_iff hv).mp hvalues
    exact .intro hwide hhead hfront hsized hbehind
  case mpr =>
    rintro ⟨hwide, hhead, hfront, hsized, hbehind⟩
    have hparts := (parts?_eq_some_iff hv).mpr ⟨_, _, _, hhead, hfront, hsized, hbehind, rfl⟩
    simp only [expand?, hn, hwide, hparts]
    rfl

end Font

namespace RuleSet

/-- A font among other rules is taken apart to the six rules that its components say, if there is a
size with a family behind it; otherwise it stays the rule it is. -/
theorem expandFont_exact {r : Rule} (hn : r.name = "font") (hv : Value.hasShape .whole r.value)
    (front back : RuleSet) (n : RuleId) :
    expandWith Font.expandScanned? (front ++ r :: back) = expandFont (front ++ r :: back) ∧
    ∃ front' new back', ((expandFont (front ++ r :: back)).run n).1 = front' ++ new ++ back' ∧
      Expanded n Font.expand? front front' ∧ Expanded n Font.expand? back back' ∧
      (Font.TakenApart r.toDeclaration new.declarations ∧ (∀ s ∈ new, n ≤ s.id) ∨
        new = [r] ∧ ∀ ds, ¬Font.TakenApart r.toDeclaration ds) := by
  refine ⟨by rw [Font.expandScanned?_eq, expandFont], ?_⟩
  have hexpanded := expanded_expandWith Declaration.isInherited_font (front ++ r :: back) n
  obtain ⟨front', rest, heq, hfront, hrest⟩ := hexpanded.exists_append
  cases hrest
  case keep back' hr hback =>
    refine ⟨front', [r], back', heq.trans (by simp), hfront, hback, .inr ⟨rfl, fun ds hds => ?_⟩⟩
    rw [(Font.expand?_eq_some_iff hn hv).mpr hds] at hr
    cases hr
  case rewrite new back' hr hnew hback =>
    refine ⟨front', new, back', heq.trans (by simp), hfront, hback, .inl ⟨?_, fun s hs => ?_⟩⟩
    · exact (Font.expand?_eq_some_iff hn hv).mp hr
    · exact (hnew s hs).1

-- A number that is a weight and one that is a size, a style that comes too late, a line height that
-- would be a weight, and a fallback.
def crowdedFont : Rule where
  name := "font"
  value := .list .comma
    [.list .space [.size ⟨.ofNat 700, none⟩, .keyword "normal", .keyword "oblique",
      .keyword "italic", .pair (.size ⟨.ofNat 1000, none⟩) (.keyword "bold"), .keyword "Times",
      .keyword "small"], .keyword "serif"]
  id := 0

theorem expandFont_exact_crowded : crowdedFont.name = "font" ∧
    Value.hasShape .whole crowdedFont.value ∧
    ∃ new : RuleSet, ((expandFont [crowdedFont]).run 1).1 = new ∧
      Font.TakenApart crowdedFont.toDeclaration new.declarations := by
  have hv : Value.hasShape .whole crowdedFont.value := by decide +kernel
  refine ⟨rfl, hv, ?_⟩
  obtain ⟨-, front', new, back', heq, hfront, hback, h⟩ :=
    @expandFont_exact crowdedFont rfl hv [] [] 1
  cases hfront
  cases hback
  obtain ⟨htaken, -⟩ | ⟨-, hnot⟩ := h
  case inl => exact ⟨new, by simpa using heq, htaken⟩
  case inr =>
    have htaken : Font.TakenApart crowdedFont.toDeclaration _ :=
      @Font.TakenApart.intro _ [.size ⟨.ofNat 700, none⟩, .keyword "normal", .keyword "oblique",
        .keyword "italic"] [.keyword "Times", .keyword "small"]
        (.pair (.size ⟨.ofNat 1000, none⟩) (.keyword "bold")) rfl rfl (by decide +kernel) rfl
        (by simp)
    exact absurd htaken (hnot _)

end RuleSet
end Stylesheet
