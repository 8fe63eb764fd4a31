import Stylesheet.Proofs.Shorthand.Collapse
/-!
Shorthands in normal form: as they are written by creating them. The parts that such a shorthand is
expanded to collapse to it again, and so creating all shorthands undoes expanding all. Main
statement: `RuleSet.declarations_createAll_expandAll`.
-/

namespace Stylesheet

open Declaration

theorem Value.isKeyword_self (word : String) : (keyword word).isKeyword word := by
  simp [isKeyword, Text.sameWord]

theorem Value.length_of_sameItems {vs ws : List Value} (h : sameItems vs ws) :
    vs.length = ws.length := by
  induction vs generalizing ws
  case nil =>
    cases ws
    case nil => rfl
    case cons => cases h
  case cons v vs ih =>
    cases ws
    case nil => cases h
    case cons w ws =>
      rw [sameItems, Bool.and_eq_true] at h
      exact congrArg (· + 1) (ih h.2)

/-! ### Normal forms -/

-- A selection of a width, a style and a color in this order.
structure Border.Normal where
  said : Border.Aspect → Option Value
  aspectOf? : ∀ a, ∀ v ∈ said a, Border.aspectOf? v = some a
  ne_nil : Border.aspects.filterMap said ≠ []

def Border.Normal.value (b : Border.Normal) : Value :=
  .spaceList (Border.aspects.filterMap b.said)

-- The fewest words for four sides. One that every property takes stands alone.
structure Sides.Normal where
  words : List Value
  sides : Sides Value
  ofList? : Sides.ofList? words = some sides
  minimal : Value.sameItems sides.minimal words
  isList : ∀ v ∈ words, v.isList = false
  isCssWide : 1 < words.length → ∀ v ∈ words, v.isCssWide = false

def Sides.Normal.value (s : Sides.Normal) : Value :=
  .spaceList s.words

-- A style, a variant and a weight, of which each may be missing, a size with or without a line
-- height, and a family with or without fallbacks.
structure Font.Normal where
  style : Option Value
  variant : Option Value
  weight : Option Value
  size : Value
  lineHeight : Option Value
  family : List Value
  fallbacks : List Value
  isFontStyle : ∀ v ∈ style, v.isFontStyle
  isFontVariant : ∀ v ∈ variant, v.isFontVariant
  isFontWeight : ∀ v ∈ weight, v.isFontWeight
  isFontSize : size.isFontSize
  -- Without a line height a number alone would be the weight.
  not_isFontWeight : lineHeight = none → size.isFontWeight = false
  not_isNormal : ∀ v ∈ lineHeight, v.isKeyword "normal" = false ∧ v.isCssWide = false
  family_ne_nil : family ≠ []
  isList : ∀ v ∈ family, v.isList = false
  isCssWide : (Font.withFallbacks family fallbacks).isCssWide = false

def Font.Normal.value (f : Font.Normal) : Value :=
  Font.withFallbacks (f.style.toList ++ f.variant.toList ++ f.weight.toList ++
    Font.sized f.size f.lineHeight :: f.family) f.fallbacks

-- Positions that are written as they are: none, `center` for both directions, or two components or
-- more, unless there is a shorter way to say the same.
def Background.isNormalPosition (vs : List Value) : Prop :=
  vs = [] ∨ vs = [Background.center] ∨
    (2 ≤ vs.length ∧ Background.isInitialPosition (.list .space vs) = false ∧
      Background.isCenter (.list .space vs) = false)

-- A color and what else is not initial.
structure Background.Normal where
  color : Value
  image : Option Value
  repetition : Option Value
  attachment : Option Value
  position : List Value
  isColor : Background.aspectOf? color = some .color
  isImage : ∀ v ∈ image, Background.aspectOf? v = some .image ∧ v.isKeyword "none" = false
  isRepetition : ∀ v ∈ repetition,
    Background.aspectOf? v = some .repetition ∧ v.isKeyword "repeat" = false
  isAttachment : ∀ v ∈ attachment,
    Background.aspectOf? v = some .attachment ∧ v.isKeyword "scroll" = false
  isPosition : ∀ v ∈ position, Background.aspectOf? v = some .position
  isNormalPosition : Background.isNormalPosition position

def Background.Normal.value (b : Background.Normal) : Value :=
  .spaceList (b.color :: (b.image.toList ++ b.repetition.toList ++ b.attachment.toList ++ b.position))

-- A declaration in normal form: of one of the five shorthands, or of a name that has nothing to do
-- with any.
inductive Declaration.IsNormal (d : Declaration) : Prop
  | border (b : Border.Normal) (hn : d.name = "border") (hv : d.value = b.value)
  | sides (s : Sides.Normal) (hn : d.name ∈ ["margin", "padding"]) (hv : d.value = s.value)
  | font (f : Font.Normal) (hn : d.name = "font") (hv : d.value = f.value)
  | background (b : Background.Normal) (hn : d.name = "background") (hv : d.value = b.value)
  | other (hn : d.name ∉ shorthands) (hp : ∀ c ∈ Creation.all, d.name ∉ c.names)

/-! ### Collapsing -/

namespace Creation

variable {c : Creation} {d : Declaration} {values : List Value} {l : Longhands}

-- What parts say that have the names of a creation.
structure Holds (c : Creation) (l : Longhands) (values : List Value) : Prop where
  value? : ∀ n, l.value? n = (c.names.zip values).lookup n
  any : ∀ p : Value → Bool, (∀ v ∈ values, p v = false) → l.any p = false

theorem Holds.of_say (hn : c.names.Nodup) (hl : l.Say (List.zipWith d.derive c.names values)) :
    c.Holds l values where
  value? n := by
    rw [hl.value?, last?_zipWith hn, Option.map_map]
    exact Option.map_id'
  any p hp := by
    refine hl.any p fun e he => ?_
    rw [List.mem_iff_getElem] at he
    obtain ⟨i, hi, he⟩ := he
    rw [List.getElem_zipWith] at he
    subst he
    exact hp _ (List.getElem_mem _)

theorem takes_of_mem_zipWith {e : Declaration} (h : e ∈ List.zipWith d.derive c.names values) :
    c.takes e := by
  simpa [takes] using name_of_mem_zipWith h

theorem collapses_zipWith (hn : c.names.Nodup) (hne : List.zipWith d.derive c.names values ≠ [])
    (hv : ∀ l : Longhands, c.Holds l values → c.value? l = some d.value) :
    c.Collapses d (List.zipWith d.derive c.names values) where
  ne_nil := hne
  takes _ := takes_of_mem_zipWith
  derive e he := by
    obtain ⟨n, v, rfl⟩ : ∃ n v, e = d.derive n v := by
      rw [List.mem_iff_getElem] at he
      obtain ⟨i, hi, he⟩ := he
      exact ⟨_, _, he.symm.trans List.getElem_zipWith⟩
    exact ⟨rfl, rfl⟩
  value? l hl := hv l (.of_say hn hl)

-- What is as it would be without it is not said.
theorem filter_isKeyword_getD {initial : String} {o : Option Value}
    (h : ∀ v ∈ o, v.isKeyword initial = false) :
    (some (o.getD (.keyword initial))).filter (fun v => !v.isKeyword initial) = o := by
  cases o
  case none => simp [Option.filter, Value.isKeyword_self]
  case some v => simp [Option.filter, h v rfl]

end Creation

namespace Background

variable {d : Declaration} {vs : List Value} {a : Aspect} {v : Value}

theorem not_isCommaList_or_isCssWide (h : aspectOf? v = some a) :
    (v.isCommaList || v.isCssWide) = false := by
  rw [Bool.or_eq_false_iff]
  constructor
  · have := not_isList_of_aspectOf? h
    cases v <;> simp_all [Value.isList, Value.isCommaList]
  · refine Bool.eq_false_iff.mpr fun hw => ?_
    rw [aspectOf?_of_isCssWide hw] at h
    cases h

theorem positionParts_positionOf (h : isNormalPosition vs) : positionParts (positionOf vs) = vs := by
  rcases h with rfl | rfl | ⟨hl, hi, hc⟩
  · rfl
  · rfl
  · rw [positionOf_of_length hl, positionParts, hi]
    simp only [Value.components, Bool.false_eq_true, if_false]
    split
    case h_2 => rfl
    case h_1 first second =>
      have : (first.isKeyword "center" && second.isKeyword "center") = false := by
        simpa [isCenter, Value.components] using hc
      rw [if_neg (by simp [this])]

theorem not_isCommaList_positionOf (hp : ∀ v ∈ vs, aspectOf? v = some .position) :
    ((positionOf vs).isCommaList || (positionOf vs).isCssWide) = false := by
  unfold positionOf
  split
  · rfl
  · rfl
  · have hor := fun v hv => Bool.or_eq_false_iff.mp (not_isCommaList_or_isCssWide (hp v hv))
    rw [Bool.or_eq_false_iff]
    exact ⟨Value.isCommaList_spaceList fun v hv => not_isList_of_aspectOf? (hp v hv),
      Value.isCssWide_spaceList fun v hv => (hor v hv).2⟩

theorem Normal.collapses (b : Normal) (hn : d.name = "background") (hv : d.value = b.value) :
    Creation.background.Collapses d d.longhands := by
  have he := @expand?_of_parts d (some b.color) b.image b.repetition b.attachment b.position hn
    (by simpa using b.isColor) (fun v hv => (b.isImage v (Option.mem_toList.mp hv)).1)
    (fun v hv => (b.isRepetition v (Option.mem_toList.mp hv)).1)
    (fun v hv => (b.isAttachment v (Option.mem_toList.mp hv)).1) b.isPosition
    (by simp [hv, Normal.value])
  rw [longhands_of_expand? hn he]
  refine Creation.collapses_zipWith (by decide) (by simp [Creation.background, longhands])
    fun l hl => ?_
  have hkeyword {o : Option Value} {initial : String} {a : Aspect} (ho : ∀ v ∈ o, aspectOf? v = some a)
      (hi : ((Value.keyword initial).isCommaList || (Value.keyword initial).isCssWide) = false) :
      ((o.getD (.keyword initial)).isCommaList || (o.getD (.keyword initial)).isCssWide) = false := by
    cases o
    case none => exact hi
    case some v => exact not_isCommaList_or_isCssWide (ho v rfl)
  have hany : l.any (fun v => v.isCommaList || v.isCssWide) = false := by
    refine hl.any _ ?_
    simp only [List.forall_mem_cons, List.not_mem_nil, false_implies, implies_true, and_true]
    exact ⟨not_isCommaList_or_isCssWide b.isColor,
      hkeyword (fun v hv => (b.isImage v hv).1) (by decide),
      hkeyword (fun v hv => (b.isRepetition v hv).1) (by decide),
      hkeyword (fun v hv => (b.isAttachment v hv).1) (by decide),
      not_isCommaList_positionOf b.isPosition⟩
  have hcolor : l.value? "background-color" = some b.color := hl.value? _
  have himage : l.value? "background-image" = some (b.image.getD (.keyword "none")) := hl.value? _
  have hrepetition : l.value? "background-repeat" = some (b.repetition.getD (.keyword "repeat")) :=
    hl.value? _
  have hattachment :
      l.value? "background-attachment" = some (b.attachment.getD (.keyword "scroll")) :=
    hl.value? _
  have hposition : l.value? "background-position" = some (positionOf b.position) := hl.value? _
  simp only [Creation.background, value?, hany, hcolor, himage, hrepetition, hattachment, hposition,
    Creation.filter_isKeyword_getD fun v hv => (b.isImage v hv).2,
    Creation.filter_isKeyword_getD fun v hv => (b.isRepetition v hv).2,
    Creation.filter_isKeyword_getD fun v hv => (b.isAttachment v hv).2]
  simp [hv, Normal.value, positionParts_positionOf b.isNormalPosition]

end Background

namespace Sides

variable {d : Declaration} {family : String} {vs : List Value} {v : Value} {sides : Sides Value}

-- As many words as needed are the very ones.
theorem minimal_eq_of_length (h : Sides.ofList? vs = some sides)
    (hl : sides.minimal.length = vs.length) : sides.minimal = vs := by
  fun_cases Sides.ofList? vs
  case case5 => simp_all [Sides.ofList?]
  all_goals
    simp only [Sides.ofList?, Option.some.injEq] at h
    subst h
    revert hl
    simp only [minimal, toList]
    repeat' split
    all_goals simp

theorem lookup_longhands {a b c e : String} {w x y z : Value} (h : [a, b, c, e].Nodup) :
    ([a, b, c, e].zip [w, x, y, z]).lookup a = some w ∧
      ([a, b, c, e].zip [w, x, y, z]).lookup b = some x ∧
      ([a, b, c, e].zip [w, x, y, z]).lookup c = some y ∧
      ([a, b, c, e].zip [w, x, y, z]).lookup e = some z := by
  simp only [List.nodup_cons, List.mem_cons, List.not_mem_nil, or_false, not_or] at h
  obtain ⟨⟨hab, hac, hae⟩, ⟨hbc, hbe⟩, hce, -⟩ := h
  have hne {m n : String} (h : m ≠ n) : (n == m) = false := by simpa using Ne.symm h
  simp [List.lookup_cons, hne hab, hne hac, hne hae, hne hbc, hne hbe, hne hce]

theorem value?_of_holds {l : Longhands} (hn : family ∈ families)
    (hl : (Creation.sides family).Holds l sides.toList) :
    l.value? (longhand family "top") = some sides.top ∧
      l.value? (longhand family "right") = some sides.right ∧
      l.value? (longhand family "bottom") = some sides.bottom ∧
      l.value? (longhand family "left") = some sides.left := by
  obtain ⟨ht, hr, hb, hlf⟩ := @lookup_longhands _ _ _ _ sides.top sides.right sides.bottom
    sides.left (nodup_longhands _ hn)
  exact ⟨(hl.value? _).trans ht, (hl.value? _).trans hr, (hl.value? _).trans hb,
    (hl.value? _).trans hlf⟩

theorem Normal.collapses (s : Normal) (hn : d.name ∈ families) (hv : d.value = s.value) :
    (Creation.sides d.name).Collapses d d.longhands := by
  have hne : s.words ≠ [] := by
    intro he
    have := s.ofList?
    simp [he, Sides.ofList?] at this
  have hc : d.value.components = s.words := hv ▸ Value.components_spaceList hne s.isList
  have hcomma : d.value.isCommaList = false := hv ▸ Value.isCommaList_spaceList s.isList
  have he : expand? d = some (List.zipWith d.derive (longhands d.name) s.sides.toList) := by
    simp [expand?, hn, hcomma, hc, s.ofList?]
  rw [longhands_of_expand? (not_mem_border_shorthands _ hn) he]
  refine Creation.collapses_zipWith (nodup_longhands _ hn)
    (by simp [Creation.sides, longhands, names, toList]) fun l hl => ?_
  obtain ⟨htop, hright, hbottom, hleft⟩ := value?_of_holds hn hl
  have hany : l.any Value.isList = false :=
    hl.any _ fun v hv => s.isList v (mem_of_ofList? s.ofList? hv)
  have hminimal : s.sides.minimal = s.words :=
    minimal_eq_of_length s.ofList? (Value.length_of_sameItems s.minimal)
  have hwide : (decide (1 < s.words.length) && s.words.any Value.isCssWide) = false := by
    rw [Bool.and_eq_false_iff, decide_eq_false_iff_not, List.any_eq_false]
    by_cases h : 1 < s.words.length
    · exact .inr fun v hv => by simp [s.isCssWide h v hv]
    · exact .inl h
  simp only [Creation.sides, value?, htop, hright, hbottom, hleft, hany, bind, Option.bind_some]
  simp only [hminimal, hwide, Bool.false_eq_true, if_false]
  rw [hv, Normal.value]

-- One word that is equal to itself counts for every side.
def Normal.of_same (hs : v.same v) (hl : v.isList = false) : Normal where
  words := [v]
  sides := ⟨v, v, v, v⟩
  ofList? := rfl
  minimal := by
    have : (v == v) = true := hs
    simp [Sides.minimal, this, Value.sameItems, hs]
  isList := by simpa using hl
  isCssWide := by simp

end Sides

namespace Border

variable {d e : Declaration} {v : Value} {a : Aspect} {n : String}

theorem not_isList_of_aspect (h : aspectOf? v = some a) : v.isList = false := by
  cases v
  case list =>
    simp [aspectOf?, Value.isBorderStyle, Value.isColor, Value.isBorderWidth, Value.isKeywordOf,
      Value.isSize] at h
  all_goals rfl

theorem not_isCssWide_of_aspect (h : aspectOf? v = some a) : v.isCssWide = false := by
  refine Bool.eq_false_iff.mpr fun hwide => ?_
  have hw := Value.isKeywordOf_of_isCssWide hwide
  simp only [Value.tellingWords, List.forall_mem_cons] at hw
  obtain ⟨hc, hs, hb, -⟩ := hw
  cases v
  case keyword =>
    simp [aspectOf?, Value.isBorderStyle, Value.isColor, Value.isBorderWidth, Value.isSize, hs, hc,
      hb] at h
  all_goals cases hwide

-- What the part of a name says.
def Normal.value? (b : Normal) (n : String) : Option Value :=
  (aspects.find? fun a => n == "border-" ++ a.name).bind b.said

theorem Normal.exists_aspect {b : Normal} (h : b.value? n = some v) :
    ∃ a, Border.aspectOf? v = some a := by
  obtain ⟨a, _, hv⟩ := Option.bind_eq_some_iff.mp h
  exact ⟨a, b.aspectOf? a v hv⟩

theorem Normal.value?_name (b : Normal) (a : Aspect) : b.value? ("border-" ++ a.name) = b.said a := by
  cases a <;> rfl

theorem Normal.filterMap_value? (b : Normal) :
    longhands.filterMap b.value? = aspects.filterMap b.said := by
  rw [longhands, List.filterMap_map]
  exact List.filterMap_congr fun a _ => b.value?_name a

theorem Normal.expand? (b : Normal) (hn : d.name = "border") (hv : d.value = b.value) :
    Border.expand? d = some (partsOf d b.value?) := by
  refine expand?_of_proper hn ?_ ?_ (fun n v h => ?_) (fun n v h => ?_) fun a _ v h => ?_
  · rw [b.filterMap_value?, hv, value]
  · exact b.filterMap_value? ▸ b.ne_nil
  · exact not_isList_of_aspect (exists_aspect h).choose_spec
  · exact not_isCssWide_of_aspect (exists_aspect h).choose_spec
  · exact b.aspectOf? a v (b.value?_name a ▸ h)

theorem of_mem_partsOf {value? : String → Option Value} (h : e ∈ partsOf d value?) :
    ∃ n ∈ longhands, ∃ v, value? n = some v ∧ e = d.derive n v := by
  simp only [partsOf, List.mem_filterMap, Option.map_eq_some_iff] at h
  obtain ⟨n, hn, v, hv, he⟩ := h
  exact ⟨n, hn, v, hv, he.symm⟩

theorem Normal.collapses (b : Normal) (hn : d.name = "border") (hv : d.value = b.value) :
    Creation.border.Collapses d (expandBy Border.expand? d) := by
  have he := b.expand? hn hv
  rw [expandBy_of_some he]
  have hany : ∀ e ∈ partsOf d b.value?, (e.value.isList || e.value.isCssWide) = false := by
    intro e hmem
    obtain ⟨n, _, v, hv, rfl⟩ := of_mem_partsOf hmem
    obtain ⟨a, ha⟩ := exists_aspect hv
    simp [derive, not_isList_of_aspect ha, not_isCssWide_of_aspect ha]
  refine ⟨?_, fun e hmem => ?_, fun e hmem => ?_, fun l hl => ?_⟩
  · simp only [Border.expand?, Option.ite_none_left_eq_some, Option.some.injEq] at he
    intro hnil
    rw [hnil] at he
    simp [he.2.2] at he
  · obtain ⟨n, hlonghand, v, _, rfl⟩ := of_mem_partsOf hmem
    simpa [Creation.takes, Creation.border, derive] using hlonghand
  · obtain ⟨n, _, v, _, rfl⟩ := of_mem_partsOf hmem
    exact ⟨rfl, rfl⟩
  · have hsaid : longhands.filterMap l.value? = longhands.filterMap b.value? := by
      refine List.filterMap_congr fun n hmem => ?_
      rw [hl.value?, partsOf, last?_filterMap_derive hmem, Option.map_map]
      exact Option.map_id'
    have hor := hl.any (fun v => v.isList || v.isCssWide) hany
    simp only [Creation.border, Border.value?, hor, hsaid, b.filterMap_value?]
    rw [hv, Normal.value]
    rfl

end Border

namespace Font

variable {d : Declaration} {v : Value} {family fallbacks : List Value}

theorem splitFallbacks?_withFallbacks (hl : ∀ v ∈ family, v.isList = false) :
    splitFallbacks? (withFallbacks family fallbacks) = some (.spaceList family, fallbacks) := by
  have hc := Value.isCommaList_spaceList hl
  cases fallbacks
  case nil =>
    change splitFallbacks? (.spaceList family) = _
    unfold splitFallbacks?
    split
    case h_1 he => rw [he] at hc; cases hc
    case h_2 he => rw [he] at hc; cases hc
    case h_3 => rfl
  case cons => rfl

theorem not_isCssWide_of_isFontWeight (h : v.isFontWeight) : v.isCssWide = false := by
  cases v
  case keyword =>
    exact @Value.not_isCssWide_of_isKeywordOf _ Keyword.fontWeights (by simp [Value.tellingWords]) h
  all_goals rfl

theorem not_isCssWide_of_isFontSize (h : v.isFontSize) : v.isCssWide = false := by
  cases v
  case keyword =>
    exact @Value.not_isCssWide_of_isKeywordOf _ Keyword.fontSizes (by simp [Value.tellingWords]) h
  all_goals rfl

theorem isModifier_of_isFontSize (h : v.isFontSize) : isModifier v = v.isFontWeight := by
  cases v
  case keyword word =>
    have hd : ∀ u ∈ Keyword.fontSizes, ∀ w ∈ ["normal"] ++ Keyword.fontStyles ++
        Keyword.fontVariants, Text.lower u ≠ Text.lower w := by
      decide +kernel
    simp only [List.forall_mem_append] at hd
    have hnot {words : List String}
        (hd : ∀ u ∈ Keyword.fontSizes, ∀ w ∈ words, Text.lower u ≠ Text.lower w) :
        (Value.keyword word).isKeywordOf words = false :=
      Value.not_isKeywordOf hd h
    simp [isModifier, Value.isFontStyle, Value.isFontVariant, Value.isKeyword_eq,
      hnot fun u hu => (hd u hu).1.1, hnot fun u hu => (hd u hu).1.2,
      hnot fun u hu => (hd u hu).2]
  case size => simp [isModifier, Value.isKeyword, Value.isFontStyle, Value.isFontVariant,
    Value.isKeywordOf]
  all_goals cases h

theorem isCssWide_getD {o : Option Value} (h : ∀ v ∈ o, v.isCssWide = false) :
    (o.getD normal).isCssWide = false := by
  cases o
  case none => rfl
  case some v => exact h v rfl

theorem Normal.isCssWide_values (f : Normal) :
    ∀ v ∈ [f.style.getD normal, f.variant.getD normal, f.weight.getD normal, f.size,
      f.lineHeight.getD normal, withFallbacks f.family f.fallbacks], v.isCssWide = false := by
  have hstyle : Keyword.fontStyles ∈ Value.tellingWords := by simp [Value.tellingWords]
  have hvariant : Keyword.fontVariants ∈ Value.tellingWords := by simp [Value.tellingWords]
  simp only [List.forall_mem_cons, List.not_mem_nil, false_implies, implies_true, and_true]
  exact ⟨isCssWide_getD fun v hv => Value.not_isCssWide_of_isKeywordOf hstyle (f.isFontStyle v hv),
    isCssWide_getD fun v hv => Value.not_isCssWide_of_isKeywordOf hvariant (f.isFontVariant v hv),
    isCssWide_getD fun v hv => not_isCssWide_of_isFontWeight (f.isFontWeight v hv),
    not_isCssWide_of_isFontSize f.isFontSize, isCssWide_getD fun v hv => (f.not_isNormal v hv).2,
    f.isCssWide⟩

-- No modifier says that it is the usual one.
theorem Normal.not_isNormal_modifiers (f : Normal) :
    (∀ v ∈ f.style, v.isKeyword "normal" = false) ∧
      (∀ v ∈ f.variant, v.isKeyword "normal" = false) ∧
      ∀ v ∈ f.weight, v.isKeyword "normal" = false := by
  simp only [Value.isKeyword_eq]
  refine ⟨fun v hv => ?_, fun v hv => ?_, fun v hv => ?_⟩
  · exact @Value.not_isKeywordOf Keyword.fontStyles _ (by decide) _ (f.isFontStyle v hv)
  · exact @Value.not_isKeywordOf Keyword.fontVariants _ (by decide) _ (f.isFontVariant v hv)
  · have := f.isFontWeight v hv
    cases v
    case keyword => exact @Value.not_isKeywordOf Keyword.fontWeights _ (by decide) _ this
    all_goals rfl

theorem Normal.collapses (f : Normal) (hn : d.name = "font") (hv : d.value = f.value) :
    Creation.font.Collapses d d.longhands := by
  have he := expand?_of_parts hn (fun v hv => f.isFontStyle v (Option.mem_toList.mp hv))
    (fun v hv => f.isFontVariant v (Option.mem_toList.mp hv))
    (fun v hv => f.isFontWeight v (Option.mem_toList.mp hv)) f.isFontSize
    (fun hl => isModifier_of_isFontSize f.isFontSize ▸ f.not_isFontWeight hl) f.family_ne_nil hv
  rw [longhands_of_expand? hn he fun e h =>
    (by decide : ∀ n ∈ longhands, n ≠ "background") _ (name_of_mem_zipWith h)]
  refine Creation.collapses_zipWith (by decide) (by simp [Creation.font, longhands]) fun l hl => ?_
  have hany : l.any Value.isCssWide = false := hl.any _ f.isCssWide_values
  obtain ⟨hns, hnv, hnw⟩ := f.not_isNormal_modifiers
  have hstyle : l.value? "font-style" = some (f.style.getD normal) := hl.value? _
  have hvariant : l.value? "font-variant" = some (f.variant.getD normal) := hl.value? _
  have hweight : l.value? "font-weight" = some (f.weight.getD normal) := hl.value? _
  have hsize : l.value? "font-size" = some f.size := hl.value? _
  have hheight : l.value? "line-height" = some (f.lineHeight.getD normal) := hl.value? _
  have hfamily : l.value? "font-family" = some (withFallbacks f.family f.fallbacks) := hl.value? _
  simp only [Creation.font, value?, hsize, hfamily, hany, filterMap_modifiers, hstyle, hvariant,
    hweight, hheight, normal, Creation.filter_isKeyword_getD hns,
    Creation.filter_isKeyword_getD hnv, Creation.filter_isKeyword_getD hnw,
    Creation.filter_isKeyword_getD fun v hv => (f.not_isNormal v hv).1,
    splitFallbacks?_withFallbacks f.isList, Value.components_spaceList f.family_ne_nil f.isList,
    bind, Option.bind_some]
  rw [hv, Normal.value]
  cases f.lineHeight <;> rfl

end Font

/-! ### All shorthands -/

namespace Creation

-- The creations in front of that of borders, whose parts they make.
def early : List Creation :=
  background :: Sides.families.map sides

def late : List Creation :=
  [border, font]

theorem areApart_early : AreApart early := by
  constructor <;> decide

theorem areApart_late : AreApart late := by
  constructor <;> decide

end Creation

namespace Declaration

open Creation

variable {d e : Declaration} {ds : List Declaration}

-- What is in the place of a declaration between the early and the late creations.
def halfway (d : Declaration) : List Declaration :=
  (expandBy Border.expand? d).flatMap fun e =>
    if e.name ∈ early.map shorthand then [e] else e.longhands

theorem not_mem_border_shorthands_of_mem_longhands :
    ∀ n ∈ Border.longhands, n ∉ Border.shorthands ∧ n ∈ Sides.families := by
  decide

-- Only a border is taken apart in two steps.
theorem IsNormal.border_or (h : d.IsNormal) :
    d.name = "border" ∧ (∃ b : Border.Normal, d.value = b.value) ∨
      d.name ≠ "border" ∧ d.name ∉ Border.longhands ∧ expandBy Border.expand? d = [d] := by
  have hone {names : List String} (hn : d.name ∈ names)
      (hd : ∀ n ∈ names, n ≠ "border" ∧ n ∉ Border.longhands ∧ n ∉ Border.shorthands) :
      d.name ≠ "border" ∧ d.name ∉ Border.longhands ∧ expandBy Border.expand? d = [d] := by
    obtain ⟨h₁, h₂, h₃⟩ := hd _ hn
    exact ⟨h₁, h₂, expandBy_of_none (expand?_border_of_name h₃)⟩
  cases h
  case border b hn hv => exact .inl ⟨hn, b, hv⟩
  case sides hn _ => exact .inr (hone hn (by decide))
  case font hn _ => exact .inr (hone (List.mem_singleton.mpr hn) (by decide))
  case background hn _ => exact .inr (hone (List.mem_singleton.mpr hn) (by decide))
  case other hn hp =>
    refine .inr ⟨fun he => hn (he ▸ by decide), hp Creation.border (by simp [Creation.all]), ?_⟩
    refine expandBy_of_none (expand?_border_of_name fun hm => hn ?_)
    exact List.mem_append_left _ (List.mem_append_left _ hm)

theorem IsNormal.longhands_eq (h : d.IsNormal) :
    d.longhands = (expandBy Border.expand? d).flatMap longhands := by
  rcases h.border_or with ⟨hn, b, hv⟩ | ⟨_, _, he⟩
  · have he := b.expand? hn hv
    rw [expandBy_of_some he]
    refine Border.longhands_of_expand? he fun e hmem => ?_
    obtain ⟨n, hn, v, _, rfl⟩ := Border.of_mem_partsOf hmem
    exact (not_mem_border_shorthands_of_mem_longhands n hn).1
  · rw [he, List.flatMap_singleton]

-- What the early creations find.
theorem IsNormal.isExpansion_early (h : d.IsNormal) (hs : d.value.same d.value)
    (he : e ∈ expandBy Border.expand? d) : IsExpansion early e e.longhands := by
  have hmem {family : String} (hf : family ∈ Sides.families) : Creation.sides family ∈ early :=
    List.mem_cons_of_mem _ (List.mem_map_of_mem hf)
  rcases h.border_or with ⟨hn, b, hv⟩ | ⟨hborder, _, hself⟩
  · rw [expandBy_of_some (b.expand? hn hv)] at he
    have hsame := (Derives.of_border (b.expand? hn hv) e he).same_self hs
    obtain ⟨n, hlonghand, v, hval, rfl⟩ := Border.of_mem_partsOf he
    have hfamily := (not_mem_border_shorthands_of_mem_longhands n hlonghand).2
    have hlist := Border.not_isList_of_aspect (Border.Normal.exists_aspect hval).choose_spec
    exact .inl ⟨Creation.sides n, hmem hfamily, rfl, (Sides.Normal.of_same hsame hlist).collapses hfamily rfl⟩
  · rw [hself, List.mem_singleton] at he
    subst he
    cases h
    case border hn _ => exact absurd hn hborder
    case sides s hn hv =>
      have hfamily := (by decide : ∀ n ∈ ["margin", "padding"], n ∈ Sides.families) _ hn
      exact .inl ⟨Creation.sides e.name, hmem hfamily, rfl, s.collapses hfamily hv⟩
    case font f hn hv =>
      refine .inr fun c hc => ⟨hn ▸ (by decide : ∀ c ∈ early, "font" ≠ c.shorthand) c hc,
        fun p hp => ?_⟩
      have htakes := (f.collapses hn hv).takes p hp
      simp only [takes, List.contains_eq_mem, decide_eq_true_eq, decide_eq_false_iff_not] at htakes ⊢
      exact (by decide : ∀ c ∈ early, ∀ n ∈ Font.longhands, n ∉ c.names) c hc _ htakes
    case background b hn hv => exact .inl ⟨Creation.background, List.mem_cons_self, hn, b.collapses hn hv⟩
    case other hn hp =>
      rw [longhands_of_name hn]
      refine .inr fun c hc => ⟨fun hname => hn (hname ▸ ?_), fun p hpm => ?_⟩
      · exact shorthand_mem_shorthands c (List.mem_append_left _ hc)
      · rw [List.mem_singleton.mp hpm]
        simpa [takes] using hp c (List.mem_append_left _ hc)


-- No name is twice among the parts of a border.
theorem count_partsOf_le (value? : String → Option Value) (n : String) :
    ((Border.partsOf d value?).map (·.name)).count n ≤ if n ∈ Border.longhands then 1 else 0 := by
  have hnames (names : List String) :
      (names.filterMap fun n => (value? n).map (d.derive n)).map (·.name) =
        names.filter fun n => (value? n).isSome := by
    induction names
    case nil => rfl
    case cons n names ih => cases h : value? n <;> simp [h, ih, derive]
  rw [Border.partsOf, hnames]
  refine Nat.le_trans (List.filter_sublist.count_le n) ?_
  split
  case isTrue => exact List.nodup_iff_count.mp (by decide) n
  case isFalse h => exact Nat.le_of_eq (List.count_eq_zero.mpr h)

theorem count_flatMap_le {g : Declaration → List Declaration} {n m : String}
    (h : ∀ d ∈ ds, ((g d).map (·.name)).count n ≤ if d.name = m then 1 else 0) :
    ((ds.flatMap g).map (·.name)).count n ≤ (ds.map (·.name)).count m := by
  induction ds
  case nil => exact Nat.le_refl _
  case cons d ds ih =>
    obtain ⟨hd, hds⟩ := List.forall_mem_cons.mp h
    rw [List.flatMap_cons, List.map_append, List.count_append, List.map_cons, List.count_cons,
      Nat.add_comm]
    simpa using Nat.add_le_add (ih hds) hd

-- The shorthands of the sides come from a border alone.
theorem count_expandBy_border_le (hn : ∀ d ∈ ds, d.IsNormal)
    (hone : ∀ n ∈ ["border", "margin", "padding", "font", "background"],
      (ds.map (·.name)).count n ≤ 1) {c : Creation} (hc : c ∈ early) :
    ((ds.flatMap (expandBy Border.expand?)).map (·.name)).count c.shorthand ≤ 1 := by
  have howner : ∀ c ∈ early, c.shorthand ≠ "border" ∧ (c.shorthand ∈ Border.longhands ∨
      c.shorthand ∈ ["border", "margin", "padding", "font", "background"]) := by
    decide
  obtain ⟨hborder, hlonghand⟩ := howner c hc
  by_cases hl : c.shorthand ∈ Border.longhands
  · refine Nat.le_trans (@count_flatMap_le _ _ _ "border" fun d hd => ?_) (hone "border" (by simp))
    rcases (hn d hd).border_or with ⟨hname, b, hv⟩ | ⟨hname, hnot, he⟩
    · rw [expandBy_of_some (b.expand? hname hv), if_pos hname]
      exact Nat.le_trans (count_partsOf_le _ _) (Nat.le_of_eq (if_pos hl))
    · rw [he, if_neg hname]
      refine Nat.le_of_eq (List.count_eq_zero.mpr fun hmem => hnot ?_)
      rw [List.map_singleton, List.mem_singleton] at hmem
      exact hmem ▸ hl
  · refine Nat.le_trans (@count_flatMap_le _ _ _ c.shorthand fun d hd => ?_)
      (hone _ (hlonghand.resolve_left hl))
    rcases (hn d hd).border_or with ⟨hname, b, hv⟩ | ⟨hname, hnot, he⟩
    · rw [expandBy_of_some (b.expand? hname hv)]
      refine Nat.le_trans (count_partsOf_le _ _) ?_
      rw [if_neg hl]
      exact Nat.zero_le _
    · rw [he, List.map_singleton, List.count_singleton]
      simp

theorem halfway_of_expandBy (he : expandBy Border.expand? d = [d]) :
    d.halfway = if d.name ∈ early.map shorthand then [d] else d.longhands := by
  rw [halfway, he, List.flatMap_singleton]

theorem IsNormal.halfway_border {b : Border.Normal} (hn : d.name = "border") (hv : d.value = b.value) :
    d.halfway = expandBy Border.expand? d := by
  have hearly : ∀ n ∈ Border.longhands, n ∈ early.map shorthand := by
    decide
  rw [halfway]
  refine (List.flatMap_congr fun e he => ?_).trans (List.flatMap_singleton' _)
  rw [expandBy_of_some (b.expand? hn hv)] at he
  obtain ⟨n, hlonghand, v, _, rfl⟩ := Border.of_mem_partsOf he
  exact if_pos (hearly n hlonghand)

-- What the late creations find.
theorem IsNormal.isExpansion_late (h : d.IsNormal) : IsExpansion late d d.halfway := by
  have hself {names : List String} (he : expandBy Border.expand? d = [d]) (hn : d.name ∈ names)
      (hd : ∀ n ∈ names, n ∈ early.map shorthand ∧ ∀ c ∈ late, n ≠ c.shorthand ∧ n ∉ c.names) :
      IsExpansion late d d.halfway := by
    obtain ⟨hearly, hlate⟩ := hd _ hn
    rw [halfway_of_expandBy he, if_pos hearly]
    refine .inr fun c hc => ⟨(hlate c hc).1, fun e hmem => ?_⟩
    rw [List.mem_singleton.mp hmem]
    simpa [takes] using (hlate c hc).2
  rcases h.border_or with ⟨hn, b, hv⟩ | ⟨hborder, _, he⟩
  · rw [IsNormal.halfway_border hn hv]
    exact .inl ⟨Creation.border, List.mem_cons_self, hn, b.collapses hn hv⟩
  · cases h
    case border hn _ => exact absurd hn hborder
    case sides hn _ => exact hself he hn (by decide)
    case background hn _ => exact hself he (List.mem_singleton.mpr hn) (by decide)
    case font f hn hv =>
      rw [halfway_of_expandBy he, if_neg (by rw [hn]; decide)]
      exact .inl ⟨Creation.font, by simp [late], hn, f.collapses hn hv⟩
    case other hn hp =>
      have hlonghands := longhands_of_name hn
      rw [halfway_of_expandBy he, hlonghands, ite_self]
      refine .inr fun c hc => ⟨fun hname => hn (hname ▸ ?_), fun e hmem => ?_⟩
      · exact shorthand_mem_shorthands c (List.mem_append_right _ hc)
      · rw [List.mem_singleton.mp hmem]
        simpa [takes] using hp c (List.mem_append_right _ hc)

-- What the late creations leave as it is.
theorem IsNormal.halfway_of_not_mem (h : d.IsNormal) (hn : d.name ∉ late.map shorthand) :
    d.halfway = [d] := by
  rcases h.border_or with ⟨hname, _⟩ | ⟨_, _, he⟩
  · exact absurd (hname ▸ by decide) hn
  · rw [halfway_of_expandBy he]
    split
    case isTrue => rfl
    case isFalse hearly =>
      cases h
      case border hname _ => exact absurd (hname ▸ by decide) hn
      case sides hname _ =>
        exact absurd ((by decide : ∀ n ∈ ["margin", "padding"], n ∈ early.map shorthand) _ hname)
          hearly
      case font hname _ => exact absurd (hname ▸ by decide) hn
      case background hname _ => exact absurd (hname ▸ by decide) hearly
      case other hname _ => exact longhands_of_name hname

end Declaration

namespace RuleSet

variable {ds : List Declaration} {rs : RuleSet}

theorem declarations_createEach_early (hn : ∀ d ∈ ds, d.IsNormal) (hs : ∀ d ∈ ds, d.value.same d.value)
    (hone : ∀ n ∈ ["border", "margin", "padding", "font", "background"],
      (ds.map (·.name)).count n ≤ 1) (hrs : rs.declarations = ds.flatMap longhands) (next : RuleId) :
    declarations ((Creation.createEach Creation.early rs).run next).1 = ds.flatMap halfway := by
  have hflat : rs.declarations = (ds.flatMap (expandBy Border.expand?)).flatMap longhands := by
    rw [hrs, List.flatMap_assoc]
    exact List.flatMap_congr fun d hd => (hn d hd).longhands_eq
  have hexpansion : ∀ e ∈ ds.flatMap (expandBy Border.expand?),
      Creation.IsExpansion Creation.early e e.longhands := by
    intro e he
    obtain ⟨d, hd, he⟩ := List.mem_flatMap.mp he
    exact (hn d hd).isExpansion_early (hs d hd) he
  rw [Creation.declarations_createEach Creation.areApart_early
    (fun c hc => count_expandBy_border_le hn hone hc) hexpansion hflat, List.flatMap_assoc]
  rfl

theorem declarations_createEach_late (hn : ∀ d ∈ ds, d.IsNormal)
    (hone : ∀ n ∈ ["border", "margin", "padding", "font", "background"],
      (ds.map (·.name)).count n ≤ 1) (hrs : rs.declarations = ds.flatMap halfway) (next : RuleId) :
    declarations ((Creation.createEach Creation.late rs).run next).1 = ds := by
  have hlate : ∀ c ∈ Creation.late,
      c.shorthand ∈ ["border", "margin", "padding", "font", "background"] := by
    decide
  rw [Creation.declarations_createEach Creation.areApart_late (fun c hc => hone _ (hlate c hc))
    (fun d hd => (hn d hd).isExpansion_late) hrs]
  refine (List.flatMap_congr fun d hd => ?_).trans (List.flatMap_singleton' _)
  split
  case isTrue => rfl
  case isFalse h => exact (hn d hd).halfway_of_not_mem h

theorem run_expandAll_createAll (rs : RuleSet) (next : RuleId) :
    (rs.expandAll >>= createAll).run next =
      (createAll (rs.expandAll.run next).1).run (rs.expandAll.run next).2 :=
  StateT.run_bind ..

-- Shorthands in normal form come back when they are created from what they are expanded to.
theorem declarations_createAll_expandAll (hn : ∀ d ∈ rs.declarations, d.IsNormal)
    (hs : ∀ d ∈ rs.declarations, d.value.same d.value)
    (hone : ∀ n ∈ ["border", "margin", "padding", "font", "background"],
      (rs.declarations.map (·.name)).count n ≤ 1) (next : RuleId) :
    declarations ((rs.expandAll >>= createAll).run next).1 = rs.declarations := by
  rw [run_expandAll_createAll, ← Creation.createEach_all,
    show Creation.all = Creation.early ++ Creation.late from rfl, Creation.createEach_append]
  exact declarations_createEach_late hn hone
    (declarations_createEach_early hn hs hone (expandAll_declarations rs next) _) _

def thinSolid : Border.Aspect → Option Value
  | .width => some (.keyword "thin")
  | .style => some (.keyword "solid")
  | .color => none

-- A rule for each shorthand, and one for a property that is none.
def oneOfEach : RuleSet :=
  [{ name := "border", value := .list .space [.keyword "thin", .keyword "solid"], id := 0 },
   { name := "margin", value := .list .space [.size ⟨.ofNat 1, some "em"⟩, .keyword "auto"],
     id := 1 },
   { name := "padding", value := .keyword "inherit", id := 2 },
   { name := "color", value := .keyword "red", important := true, id := 3 },
   { name := "font", id := 4,
     value := .list .comma [.list .space [.keyword "bold",
       .pair (.size ⟨.ofNat 12, some "px"⟩) (.size ⟨.ofNat 2, none⟩), .keyword "Georgia"],
       .keyword "serif"] },
   { name := "background", important := true, id := 5,
     value := .list .space [.hex "fff", .url "x.png", .keyword "no-repeat", .keyword "left",
       .keyword "top"] }]

theorem isNormal_oneOfEach : ∀ d ∈ oneOfEach.declarations, d.IsNormal := by
  simp only [oneOfEach, declarations, List.map_cons, List.map_nil, List.forall_mem_cons]
  refine ⟨?_, ?_, ?_, ?_, ?_, ?_, by simp⟩
  · refine .border ⟨thinSolid, ?_, by simp [Border.aspects, thinSolid]⟩ rfl rfl
    rintro (_ | _ | _) v hv
    · cases hv; decide +kernel
    · cases hv; decide +kernel
    · cases hv
  · refine .sides ⟨[.size ⟨.ofNat 1, some "em"⟩, .keyword "auto"], _, rfl, ?_, ?_, ?_⟩ (by decide) rfl
    all_goals decide +kernel
  · refine .sides (Sides.Normal.of_same ?_ ?_) (by decide) rfl
    all_goals decide +kernel
  · refine .other ?_ ?_
    all_goals decide +kernel
  · refine .font ⟨none, none, some (.keyword "bold"), .size ⟨.ofNat 12, some "px"⟩,
      some (.size ⟨.ofNat 2, none⟩), [.keyword "Georgia"], [.keyword "serif"], ?_, ?_, ?_, ?_, ?_,
      ?_, ?_, ?_, ?_⟩ rfl rfl
    case refine_7 => simp
    all_goals decide +kernel
  · refine .background ⟨.hex "fff", some (.url "x.png"), some (.keyword "no-repeat"), none,
      [.keyword "left", .keyword "top"], ?_, ?_, ?_, ?_, ?_, .inr (.inr ?_)⟩ rfl rfl
    all_goals decide +kernel

theorem declarations_createAll_expandAll_oneOfEach :
    declarations ((oneOfEach.expandAll >>= createAll).run 6).1 = oneOfEach.declarations :=
  declarations_createAll_expandAll isNormal_oneOfEach (by decide +kernel) (by decide +kernel) 6

end RuleSet
end Stylesheet
