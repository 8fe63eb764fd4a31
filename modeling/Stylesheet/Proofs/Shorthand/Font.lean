import Stylesheet.Proofs.Shorthand.Background
/-!
Fonts. A font reads back as the parts it was made of if style, variant and weight are what their
names say or `normal`, and the size is not taken for one of them (`Creation.readsBack_font`).
-/

namespace Stylesheet

open Declaration

namespace Font

variable {v w : Value} {vs fallbacks : List Value}

-- Whether a modifier is of its kind, if it says anything.
def isProper (isOfKind : Value → Bool) (v : Value) : Bool :=
  v.isKeyword "normal" || isOfKind v

def isSpelled : (name : String) → Value → Bool
  | "font-style" | "font-variant" | "font-weight" | "line-height" => Longhands.isSpelled "normal"
  | _ => fun _ => true

-- No value is of two kinds.
theorem isFontVariant_of_isFontStyle (h : v.isFontStyle) : v.isFontVariant = false :=
  Value.not_isKeywordOf (by decide) h

theorem isFontWeight_of_isFontStyle (h : v.isFontStyle) : v.isFontWeight = false := by
  cases v
  case keyword word =>
    exact @Value.not_isKeywordOf Keyword.fontStyles Keyword.fontWeights (by decide) _ h
  all_goals cases h

theorem isFontWeight_of_isFontVariant (h : v.isFontVariant) : v.isFontWeight = false := by
  cases v
  case keyword word =>
    exact @Value.not_isKeywordOf Keyword.fontVariants Keyword.fontWeights (by decide) _ h
  all_goals cases h

theorem isFontStyle_of_isFontVariant (h : v.isFontVariant) : v.isFontStyle = false :=
  Bool.eq_false_iff.mpr fun hs => by simp [isFontVariant_of_isFontStyle hs] at h

theorem isFontStyle_of_isFontWeight (h : v.isFontWeight) : v.isFontStyle = false :=
  Bool.eq_false_iff.mpr fun hs => by simp [isFontWeight_of_isFontStyle hs] at h

theorem isFontVariant_of_isFontWeight (h : v.isFontWeight) : v.isFontVariant = false :=
  Bool.eq_false_iff.mpr fun hs => by simp [isFontWeight_of_isFontVariant hs] at h

theorem find?_toList {o : Option Value} {p : Value → Bool} {b : Bool}
    (h : ∀ v ∈ o.toList, p v = b) : o.toList.find? p = if b then o else none := by
  cases o
  case none => simp
  case some v => cases b <;> simp_all

-- A style, a variant and a weight, of which each may be missing, are told apart.
theorem find?_modifiers {style variant weight : Option Value}
    (hs : ∀ v ∈ style.toList, v.isFontStyle) (hv : ∀ v ∈ variant.toList, v.isFontVariant)
    (hw : ∀ v ∈ weight.toList, v.isFontWeight) :
    let modifiers := style.toList ++ variant.toList ++ weight.toList
    modifiers.find? Value.isFontStyle = style ∧ modifiers.find? Value.isFontVariant = variant ∧
      modifiers.find? Value.isFontWeight = weight := by
  simp only [List.find?_append]
  rw [find?_toList hs, find?_toList fun v h => isFontStyle_of_isFontVariant (hv v h),
    find?_toList fun v h => isFontStyle_of_isFontWeight (hw v h),
    find?_toList fun v h => isFontVariant_of_isFontStyle (hs v h), find?_toList hv,
    find?_toList fun v h => isFontVariant_of_isFontWeight (hw v h),
    find?_toList fun v h => isFontWeight_of_isFontStyle (hs v h),
    find?_toList fun v h => isFontWeight_of_isFontVariant (hv v h), find?_toList hw]
  simp

theorem isSizePart_of_isModifier (h : isModifier v) : isSizePart v = false := by
  cases v
  case pair => cases h
  all_goals simp [isSizePart, h]

theorem components_ne_nil (h : Value.hasShape .group v) : v.components ≠ [] := by
  unfold Value.components
  split
  · simp only [Value.hasShape, Bool.and_eq_true, decide_eq_true_eq] at h
    exact List.ne_nil_of_length_pos (by omega)
  · simp

theorem spaceList_components (h : Value.hasShape .group v) : .spaceList v.components = v := by
  unfold Value.components
  split
  case h_1 items =>
    simp only [Value.hasShape, Bool.and_eq_true, decide_eq_true_eq] at h
    match items, h.1 with
    | _ :: _ :: _, _ => rfl
  case h_2 => rfl

theorem hasShape_group_of_not_comma (h : Value.hasShape .whole v)
    (hc : ∀ items, v ≠ .list .comma items) : Value.hasShape .group v := by
  cases v
  case list separator items =>
    cases separator
    case space => simpa [Value.hasShape] using h
    case comma => exact absurd rfl (hc items)
  all_goals simpa [Value.hasShape] using h

-- A family that was read is its first member with the others behind it.
theorem withFallbacks_of_splitFallbacks? {family first : Value}
    (h : Value.hasShape .whole family) (hs : splitFallbacks? family = some (first, fallbacks)) :
    Value.hasShape .group first ∧ withFallbacks first.components fallbacks = family := by
  unfold splitFallbacks? at hs
  split at hs
  case h_1 => cases hs
  case h_2 first' fallbacks' =>
    cases hs
    simp only [Value.hasShape, Value.itemsHaveShape, Bool.and_eq_true, decide_eq_true_eq] at h
    have hg := h.2.1
    refine ⟨hg, ?_⟩
    rw [withFallbacks, spaceList_components hg]
    cases fallbacks
    case nil => simp at h
    case cons => rfl
  case h_3 hn hc =>
    cases hs
    have hg := hasShape_group_of_not_comma h fun items he => by
      cases items
      case nil => exact hn he
      case cons => exact hc _ _ he
    exact ⟨hg, spaceList_components hg⟩

-- A size with the line height, if one is said.
def sized (size : Value) : Option Value → Value
  | some lineHeight => .pair size lineHeight
  | none => size

theorem isSizePart_sized (hz : size.isFontSize) (hl : lineHeight = none → isModifier size = false) :
    isSizePart (sized size lineHeight) := by
  cases lineHeight
  case none =>
    cases size
    case pair => cases hz
    all_goals simp [sized, isSizePart, hl rfl, hz]
  case some => exact hz

theorem splitSize_sized (hz : size.isFontSize) :
    splitSize (sized size lineHeight) = (size, lineHeight.getD normal) := by
  cases lineHeight
  case none =>
    cases size
    case pair => cases hz
    all_goals rfl
  case some => rfl

theorem spaceList_of_length (h : 2 ≤ vs.length) : Value.spaceList vs = .list .space vs := by
  match vs with
  | _ :: _ :: _ => rfl

theorem splitFallbacks?_commaList (head fallbacks : List Value) :
    splitFallbacks? (.commaList (.list .space head :: fallbacks)) =
      some (.list .space head, fallbacks) := by
  cases fallbacks <;> rfl

theorem isModifier_of_mem {style variant weight : List Value} (hs : ∀ v ∈ style, v.isFontStyle)
    (hv : ∀ v ∈ variant, v.isFontVariant) (hw : ∀ v ∈ weight, v.isFontWeight) :
    ∀ v ∈ style ++ variant ++ weight, isModifier v := by
  simp only [List.forall_mem_append]
  exact ⟨⟨fun v h => by simp [isModifier, hs v h], fun v h => by simp [isModifier, hv v h]⟩,
    fun v h => by simp [isModifier, hw v h]⟩

-- A font of modifiers, a size and a family is read as these.
theorem parts?_of_parts {style variant weight lineHeight : Option Value} {size : Value} {family : List Value}
    (hs : ∀ v ∈ style.toList, v.isFontStyle) (hv : ∀ v ∈ variant.toList, v.isFontVariant)
    (hw : ∀ v ∈ weight.toList, v.isFontWeight) (hz : size.isFontSize)
    (hl : lineHeight = none → isModifier size = false) (hf : family ≠ []) :
    let modifiers := style.toList ++ variant.toList ++ weight.toList
    parts? (withFallbacks (modifiers ++ sized size lineHeight :: family) fallbacks) =
      some [style.getD normal, variant.getD normal, weight.getD normal, size,
        lineHeight.getD normal, withFallbacks family fallbacks] := by
  intro modifiers
  have hm : ∀ v ∈ modifiers, (!isSizePart v) = true := fun v h => by
    simp [isSizePart_of_isModifier (isModifier_of_mem hs hv hw v h)]
  have hlist : Value.spaceList (modifiers ++ sized size lineHeight :: family) =
      .list .space (modifiers ++ sized size lineHeight :: family) := by
    have := List.length_pos_iff.mpr hf
    refine spaceList_of_length ?_
    simp only [List.length_append, List.length_cons]
    omega
  obtain ⟨hstyle, hvariant, hweight⟩ := find?_modifiers hs hv hw
  have hc (head : List Value) : (Value.list .space head).components = head := rfl
  rw [withFallbacks, hlist]
  simp only [parts?, splitFallbacks?_commaList, bind, Option.bind_some, hc]
  rw [List.takeWhile_append_of_pos hm, List.dropWhile_append_of_pos hm]
  simp only [List.takeWhile_cons_of_neg, List.dropWhile_cons_of_neg, isSizePart_sized hz hl,
    Bool.not_true, Bool.false_eq_true, not_false_eq_true, List.append_nil, modifiers, hstyle,
    hvariant, hweight, splitSize_sized hz]
  simp [hf]

theorem isCssWide_withFallbacks (h : 2 ≤ vs.length) :
    (withFallbacks vs fallbacks).isCssWide = false := by
  match vs with
  | _ :: _ :: _ => cases fallbacks <;> rfl

theorem expand?_of_parts {d : Declaration} {style variant weight lineHeight : Option Value}
    {size : Value} {family : List Value} (hd : d.name = "font")
    (hs : ∀ v ∈ style.toList, v.isFontStyle) (hv : ∀ v ∈ variant.toList, v.isFontVariant)
    (hw : ∀ v ∈ weight.toList, v.isFontWeight) (hz : size.isFontSize)
    (hl : lineHeight = none → isModifier size = false) (hf : family ≠ [])
    (hvalue : d.value = withFallbacks (style.toList ++ variant.toList ++ weight.toList ++
      sized size lineHeight :: family) fallbacks) :
    expand? d = some (List.zipWith d.derive longhands
      [style.getD normal, variant.getD normal, weight.getD normal, size, lineHeight.getD normal,
        withFallbacks family fallbacks]) := by
  have hparts := @parts?_of_parts fallbacks _ _ _ _ _ _ hs hv hw hz hl hf
  have hwide : d.value.isCssWide = false := by
    rw [hvalue]
    refine isCssWide_withFallbacks ?_
    have := List.length_pos_iff.mpr hf
    simp only [List.length_append, List.length_cons]
    omega
  simp only [expand?, hd, hwide]
  rw [hvalue, hparts]
  rfl

theorem filterMap_modifiers (f : String → Option Value) :
    ["font-style", "font-variant", "font-weight"].filterMap f =
      (f "font-style").toList ++ (f "font-variant").toList ++ (f "font-weight").toList := by
  cases hs : f "font-style" <;> cases hv : f "font-variant" <;> cases hw : f "font-weight" <;>
    simp [hs, hv, hw]

-- The value of a font is what was said of it.
theorem value?_eq {l : Longhands} (h : value? l = some v) :
    ∃ size family first fallbacks, l.value? "font-size" = some size ∧
      l.value? "font-family" = some family ∧ splitFallbacks? family = some (first, fallbacks) ∧
      v = withFallbacks ((l.said "font-style" "normal").toList ++
        (l.said "font-variant" "normal").toList ++ (l.said "font-weight" "normal").toList ++
        sized size (l.said "line-height" "normal") :: first.components) fallbacks := by
  simp only [value?, bind, Option.bind_eq_some_iff] at h
  obtain ⟨size, hsize, family, hfamily, h⟩ := h
  simp only [Option.ite_none_left_eq_some, Option.bind_eq_some_iff, Option.some.injEq] at h
  obtain ⟨_, ⟨first, fallbacks⟩, hsplit, h⟩ := h
  refine ⟨size, family, first, fallbacks, hsize, hfamily, hsplit, ?_⟩
  rw [← h, filterMap_modifiers]
  rfl

theorem longhands_of_expand? {d : Declaration} {ds : List Declaration} (hd : d.name = "font")
    (he : expand? d = some ds) (hn : ∀ e ∈ ds, e.name ≠ "background") : d.longhands = ds := by
  have hb : d.name ∉ Border.shorthands := by rw [hd]; decide
  have hs : d.name ∉ Sides.families := by rw [hd]; decide
  simp only [Declaration.longhands, expandBy_of_none (expand?_border_of_name hb),
    expandBy_of_none (expand?_sides_of_name hs), List.flatMap_singleton, expandBy_of_some he]
  exact flatMap_expandBy fun e h => expand?_background_of_name (hn e h)

end Font

namespace Creation

def font : Creation where
  shorthand := "font"
  names := Font.longhands
  value? := Font.value?
  proper l :=
    (l.value? "font-style").all (Font.isProper Value.isFontStyle) &&
      (l.value? "font-variant").all (Font.isProper Value.isFontVariant) &&
      (l.value? "font-weight").all (Font.isProper Value.isFontWeight) &&
      (l.value? "font-size").all fun size =>
        size.isFontSize && ((l.said "line-height" "normal").isSome || !Font.isModifier size)
  spelled := Font.isSpelled

-- What is put together from proper parts is read as what was said of it.
theorem expand?_font_of_proper {l : Longhands} {d : Declaration} {size : Value}
    {family fallbacks : List Value} (hn : d.name = "font") (hp : font.proper l)
    (hsize : l.value? "font-size" = some size) (hf : family ≠ [])
    (hv : d.value = Font.withFallbacks ((l.said "font-style" "normal").toList ++
      (l.said "font-variant" "normal").toList ++ (l.said "font-weight" "normal").toList ++
      Font.sized size (l.said "line-height" "normal") :: family) fallbacks) :
    Font.expand? d = some (List.zipWith d.derive Font.longhands
      [(l.said "font-style" "normal").getD Font.normal,
       (l.said "font-variant" "normal").getD Font.normal,
       (l.said "font-weight" "normal").getD Font.normal, size,
       (l.said "line-height" "normal").getD Font.normal, Font.withFallbacks family fallbacks]) := by
  simp only [font, Bool.and_eq_true] at hp
  obtain ⟨⟨⟨hs, hva⟩, hw⟩, hz⟩ := hp
  simp only [hsize, Option.all_some, Bool.and_eq_true, Bool.or_eq_true, Bool.not_eq_true'] at hz
  have hkind {name : String} {isOfKind : Value → Bool}
      (hp : (l.value? name).all (Font.isProper isOfKind)) :
      ∀ v ∈ (l.said name "normal").toList, isOfKind v := by
    intro v hv
    obtain ⟨hv, hn⟩ := Longhands.of_mem_said hv
    simpa [hv, Font.isProper, hn] using hp
  exact Font.expand?_of_parts hn (hkind hs) (hkind hva) (hkind hw) hz.1
    (fun hn => hz.2.resolve_left (by simp [hn])) hf hv

theorem readsBack_font : font.ReadsBack := by
  refine readsBack_of_parts (by decide) (by decide) ?_
  intro l v hv hp hshape
  obtain ⟨size, family, first, fallbacks, hsize, hfamily, hsplit, hv⟩ := Font.value?_eq hv
  obtain ⟨hfirst, hfam⟩ := Font.withFallbacks_of_splitFallbacks? (hshape _ _ hfamily) hsplit
  have he := @expand?_font_of_proper l (l.first.derive "font" v) size _ _ rfl hp hsize
    (Font.components_ne_nil hfirst) hv
  refine ⟨_, Font.longhands_of_expand? rfl he fun e h => ?_, ?_⟩
  · exact (by decide : ∀ n ∈ Font.longhands, n ≠ "background") _ (name_of_mem_zipWith h)
  · refine .cons (fun w h hs => l.agrees_said h hs) (.cons (fun w h hs => l.agrees_said h hs)
      (.cons (fun w h hs => l.agrees_said h hs) (.cons (fun w h _ => ?_)
        (.cons (fun w h hs => l.agrees_said h hs) (.cons (fun w h _ => ?_) .nil)))))
    · rw [hsize, Option.some.injEq] at h
      exact .inl h.symm
    · rw [hfamily, Option.some.injEq] at h
      exact .inl (h.symm.trans hfam.symm)

end Creation
end Stylesheet
