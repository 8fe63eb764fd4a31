import Stylesheet.Proofs.Shorthand.Sides
/-!
Backgrounds. A background reads back as the parts it was made of if each is of the aspect that its
name says, and spelled as the initial value of that aspect if it says the same
(`Creation.readsBack_background`).
-/

namespace Stylesheet

namespace Value

theorem isKeyword_eq (word : String) (v : Value) : v.isKeyword word = v.isKeywordOf [word] := by
  cases v <;> simp [isKeyword, isKeywordOf, Text.isAmong, Text.sameWord, BEq.comm]

-- A word of one table is in no other table that differs from it in more than letter case.
theorem not_isKeywordOf {us ws : List String}
    (h : ∀ u ∈ us, ∀ w ∈ ws, Text.lower u ≠ Text.lower w) {v : Value} (hv : v.isKeywordOf us) :
    v.isKeywordOf ws = false := by
  cases v
  case keyword word =>
    simp only [isKeywordOf, Text.isAmong, List.any_eq_true, Text.sameWord, beq_iff_eq] at hv
    obtain ⟨u, hu, he⟩ := hv
    simp only [isKeywordOf, Text.isAmong, List.any_eq_false, Text.sameWord, beq_iff_eq]
    exact fun w hw hew => h u hu w hw (he.trans hew.symm)
  all_goals rfl

-- The words that tell the parts of shorthands apart.
def tellingWords : List (List String) :=
  [Keyword.namedColors, Keyword.borderStyles, Keyword.borderWidths, Keyword.fontStyles,
   Keyword.fontVariants, Keyword.fontWeights, Keyword.fontSizes, ["none"],
   Keyword.backgroundRepeats, Keyword.backgroundAttachments, Keyword.backgroundPositions]

-- None of them is a word that every property takes.
theorem isKeywordOf_of_isCssWide {v : Value} (h : v.isCssWide) :
    ∀ words ∈ tellingWords, v.isKeywordOf words = false := by
  have hd : ∀ words ∈ tellingWords, ∀ u ∈ Keyword.cssWide, ∀ w ∈ words,
      Text.lower u ≠ Text.lower w := by
    decide +kernel
  exact fun words hwords => not_isKeywordOf (hd words hwords) h

theorem not_isCssWide_of_isKeywordOf {v : Value} {words : List String} (hw : words ∈ tellingWords)
    (h : v.isKeywordOf words) : v.isCssWide = false :=
  Bool.eq_false_iff.mpr fun hwide => by simp [isKeywordOf_of_isCssWide hwide words hw] at h

end Value

open Declaration

namespace Background

variable {v : Value} {a b : Aspect} {vs : List Value}

theorem not_isList_of_aspectOf? (h : aspectOf? v = some a) : v.isList = false := by
  cases v
  case list => simp [aspectOf?, Value.isColor, Value.isImage, Value.isBackgroundRepeat,
    Value.isBackgroundAttachment, Value.isBackgroundPosition, Value.isKeywordOf, Value.isKeyword,
    Value.isSize] at h
  all_goals rfl

theorem aspectOf?_of_isCssWide (h : v.isCssWide) : aspectOf? v = none := by
  have hw := Value.isKeywordOf_of_isCssWide h
  simp only [Value.tellingWords, List.forall_mem_cons] at hw
  obtain ⟨hc, -, -, -, -, -, -, hi, hr, ha, hp, -⟩ := hw
  cases v
  case keyword word =>
    simp [aspectOf?, Value.isColor, Value.isImage, Value.isBackgroundRepeat,
      Value.isBackgroundAttachment, Value.isBackgroundPosition, Value.isSize, Value.isKeyword_eq,
      hc, hi, hr, ha, hp]
  all_goals cases h

def center : Value :=
  .keyword "center"

-- The words that stand for what is not said.
theorem aspectOf?_initial :
    aspectOf? (.keyword "transparent") = some .color ∧ aspectOf? (.keyword "none") = some .image ∧
      aspectOf? (.keyword "repeat") = some .repetition ∧
      aspectOf? (.keyword "scroll") = some .attachment ∧ aspectOf? center = some .position := by
  decide +kernel

def isCenter (v : Value) : Bool :=
  v.components.length == 2 && v.components.all (·.isKeyword "center")

-- Whether a position is what it is read back as: of two components or more, and, if it says the
-- same as the initial position or as the center, in the same words.
def isSpelledPosition (v : Value) : Bool :=
  2 ≤ v.components.length && (!isInitialPosition v || v.same initialPosition) &&
    (!isCenter v || v.same (.list .space [center, center]))

def isSpelled : (name : String) → Value → Bool
  | "background-image" => Longhands.isSpelled "none"
  | "background-repeat" => Longhands.isSpelled "repeat"
  | "background-attachment" => Longhands.isSpelled "scroll"
  | "background-position" => isSpelledPosition
  | _ => fun _ => true

theorem find?_of_aspect (h : ∀ v ∈ vs, aspectOf? v = some b) :
    vs.find? (aspectOf? · == some a) = if a = b then vs.head? else none := by
  cases vs
  case nil => simp
  case cons v vs =>
    obtain ⟨hv, hr⟩ := List.forall_mem_cons.mp h
    by_cases hab : a = b
    · simp [hv, hab]
    · rw [if_neg hab, List.find?_eq_none]
      intro w hw
      simpa [h w hw] using Ne.symm hab

theorem filter_of_aspect (h : ∀ v ∈ vs, aspectOf? v = some b) :
    vs.filter (aspectOf? · == some a) = if a = b then vs else [] := by
  split
  case isTrue hab => exact List.filter_eq_self.mpr fun v hv => by simp [h v hv, hab]
  case isFalse hab =>
    refine List.filter_eq_nil_iff.mpr fun v hv => ?_
    simpa [h v hv] using Ne.symm hab

theorem eq_list_components (h : 2 ≤ v.components.length) : v = .list .space v.components := by
  unfold Value.components at h ⊢
  split
  · rfl
  · simp at h

theorem positionOf_of_length (h : 2 ≤ vs.length) : positionOf vs = .list .space vs := by
  match vs with
  | _ :: _ :: _ => rfl

theorem aspectOf?_of_positionParts (h : ∀ w ∈ v.components, aspectOf? w = some .position) :
    ∀ w ∈ positionParts v, aspectOf? w = some .position := by
  unfold positionParts
  split
  case isTrue => simp
  case isFalse =>
    split
    case h_1 first second he =>
      split
      case isTrue => exact fun w hw => List.mem_singleton.mp hw ▸ aspectOf?_initial.2.2.2.2
      case isFalse => exact he ▸ h
    case h_2 => exact h

theorem agrees_positionParts (h : isSpelledPosition v) :
    v.Agrees (positionOf (positionParts v)) := by
  simp only [isSpelledPosition, Bool.and_eq_true, decide_eq_true_eq, Bool.or_eq_true,
    Bool.not_eq_true'] at h
  obtain ⟨⟨hn, hi⟩, hc⟩ := h
  have hv := eq_list_components hn
  unfold positionParts
  split
  case isTrue h => exact .inr (hi.resolve_left (by simp [h]))
  case isFalse =>
    split
    case h_1 first second he =>
      rw [he] at hv
      split
      case isTrue h =>
        have hcenter : isCenter v := by simpa [isCenter, he] using h
        exact .inr (hc.resolve_left (by simp [hcenter]))
      case isFalse => exact .inl (hv.trans (positionOf_of_length (by simp)).symm)
    case h_2 hne => exact .inl (hv.trans (positionOf_of_length hn).symm)

theorem aspectOf?_of_said {l : Longhands} {name initial : String}
    (hp : (l.value? name).all (aspectOf? · == some a)) :
    ∀ v ∈ (l.said name initial).toList, aspectOf? v = some a := by
  intro v hv
  simpa [(Longhands.of_mem_said hv).1] using hp

-- Parts in the order of a background, each of its aspect.
theorem aspects_of_parts {color image repetition attachment position : List Value}
    (hc : ∀ v ∈ color, aspectOf? v = some .color) (hi : ∀ v ∈ image, aspectOf? v = some .image)
    (hr : ∀ v ∈ repetition, aspectOf? v = some .repetition)
    (ha : ∀ v ∈ attachment, aspectOf? v = some .attachment)
    (hp : ∀ v ∈ position, aspectOf? v = some .position) :
    let parts := color ++ image ++ repetition ++ attachment ++ position
    (∀ v ∈ parts, ∃ a, aspectOf? v = some a) ∧
      parts.find? (aspectOf? · == some .color) = color.head? ∧
      parts.find? (aspectOf? · == some .image) = image.head? ∧
      parts.find? (aspectOf? · == some .repetition) = repetition.head? ∧
      parts.find? (aspectOf? · == some .attachment) = attachment.head? ∧
      parts.filter (aspectOf? · == some .position) = position := by
  refine ⟨?_, ?_, ?_, ?_, ?_, ?_⟩
  · simp only [List.forall_mem_append]
    exact ⟨⟨⟨⟨fun v h => ⟨_, hc v h⟩, fun v h => ⟨_, hi v h⟩⟩, fun v h => ⟨_, hr v h⟩⟩,
      fun v h => ⟨_, ha v h⟩⟩, fun v h => ⟨_, hp v h⟩⟩
  iterate 4
    simp only [List.find?_append, find?_of_aspect hc, find?_of_aspect hi, find?_of_aspect hr,
      find?_of_aspect ha, find?_of_aspect hp]
    simp
  · simp only [List.filter_append, filter_of_aspect hc, filter_of_aspect hi, filter_of_aspect hr,
      filter_of_aspect ha, filter_of_aspect hp]
    simp

-- A background of parts in their order is read as these parts.
theorem expand?_of_parts {d : Declaration} {color image repetition attachment : Option Value}
    {position : List Value} (hd : d.name = "background")
    (hc : ∀ v ∈ color.toList, aspectOf? v = some .color)
    (hi : ∀ v ∈ image.toList, aspectOf? v = some .image)
    (hr : ∀ v ∈ repetition.toList, aspectOf? v = some .repetition)
    (ha : ∀ v ∈ attachment.toList, aspectOf? v = some .attachment)
    (hp : ∀ v ∈ position, aspectOf? v = some .position)
    (hv : d.value =
      let parts := color.toList ++ image.toList ++ repetition.toList ++ attachment.toList ++ position
      if parts.isEmpty then .keyword "none" else .spaceList parts) :
    expand? d = some (List.zipWith d.derive longhands
      [color.getD (.keyword "transparent"), image.getD (.keyword "none"),
       repetition.getD (.keyword "repeat"), attachment.getD (.keyword "scroll"),
       positionOf position]) := by
  obtain ⟨hall, hcolor, himage, hrepetition, hattachment, hposition⟩ :=
    aspects_of_parts hc hi hr ha hp
  simp only at hv
  generalize hparts : color.toList ++ image.toList ++ repetition.toList ++ attachment.toList ++
    position = parts at *
  have hlist : ∀ v ∈ parts, v.isList = false := fun v hv =>
    not_isList_of_aspectOf? (hall v hv).choose_spec
  by_cases hne : parts = []
  · simp only [hne, List.append_eq_nil_iff, Option.toList_eq_nil_iff] at hparts
    obtain ⟨⟨⟨⟨rfl, rfl⟩, rfl⟩, rfl⟩, rfl⟩ := hparts
    have hv : d.value = .keyword "none" := by simpa [hne] using hv
    have hn := aspectOf?_initial.2.1
    have hw : (Value.keyword "none").isCssWide = false := by decide +kernel
    simp [expand?, hd, hv, hw, hn, Value.isCommaList, Value.components]
  · have hv : d.value = .spaceList parts := by simpa [hne] using hv
    have hw : d.value.isCssWide = false := by
      refine hv ▸ Value.isCssWide_spaceList fun v hv => Bool.eq_false_iff.mpr fun h => ?_
      obtain ⟨a, ha⟩ := hall v hv
      rw [aspectOf?_of_isCssWide h] at ha
      cases ha
    have hm : d.value.isCommaList = false := hv ▸ Value.isCommaList_spaceList hlist
    have hcs : d.value.components = parts := hv ▸ Value.components_spaceList hne hlist
    have hsome : ∃ v ∈ parts, ¬aspectOf? v = none := by
      obtain ⟨v, vs, hvs⟩ := List.exists_cons_of_ne_nil hne
      obtain ⟨a, ha⟩ := hall v (by simp [hvs])
      exact ⟨v, by simp [hvs], by simp [ha]⟩
    simp [expand?, hd, hw, hm, hcs, hsome, hcolor, himage, hrepetition, hattachment, hposition]

theorem longhands_of_expand? {d : Declaration} {ds : List Declaration}
    (hd : d.name = "background") (he : expand? d = some ds) : d.longhands = ds := by
  have hb : d.name ∉ Border.shorthands := by rw [hd]; decide
  have hs : d.name ∉ Sides.families := by rw [hd]; decide
  have hf : d.name ≠ "font" := by rw [hd]; decide
  simp [Declaration.longhands, expandBy_of_none (expand?_border_of_name hb),
    expandBy_of_none (expand?_sides_of_name hs), expandBy_of_none (expand?_font_of_name hf),
    expandBy_of_some he]

end Background

namespace Creation

def background : Creation where
  shorthand := "background"
  names := Background.longhands
  value? := Background.value?
  proper l :=
    (l.value? "background-color").all (Background.aspectOf? · == some .color) &&
      (l.value? "background-image").all (Background.aspectOf? · == some .image) &&
      (l.value? "background-repeat").all (Background.aspectOf? · == some .repetition) &&
      (l.value? "background-attachment").all (Background.aspectOf? · == some .attachment) &&
      (l.value? "background-position").all
        (·.components.all (Background.aspectOf? · == some .position))
  spelled := Background.isSpelled

-- What is put together from proper parts is read as what was said of it.
theorem expand?_background_of_proper {l : Longhands} {d : Declaration} (hn : d.name = "background")
    (hp : background.proper l) (hv : Background.value? l = some d.value) :
    Background.expand? d = some (List.zipWith d.derive Background.longhands
      [(l.value? "background-color").getD (.keyword "transparent"),
       (l.said "background-image" "none").getD (.keyword "none"),
       (l.said "background-repeat" "repeat").getD (.keyword "repeat"),
       (l.said "background-attachment" "scroll").getD (.keyword "scroll"),
       Background.positionOf
        ((l.value? "background-position").toList.flatMap Background.positionParts)]) := by
  simp only [background, Bool.and_eq_true] at hp
  obtain ⟨⟨⟨⟨hc, hi⟩, hr⟩, ha⟩, hps⟩ := hp
  simp only [Background.value?, Option.ite_none_left_eq_some, Option.some.injEq] at hv
  have hcolor : ∀ v ∈ (l.value? "background-color").toList,
      Background.aspectOf? v = some .color := by
    intro v hv
    simpa [Option.mem_toList.mp hv] using hc
  refine Background.expand?_of_parts hn hcolor (Background.aspectOf?_of_said hi)
    (Background.aspectOf?_of_said hr) (Background.aspectOf?_of_said ha) (fun v hv => ?_) hv.2.symm
  obtain ⟨w, hw, hvw⟩ := List.mem_flatMap.mp hv
  refine Background.aspectOf?_of_positionParts (fun x hx => ?_) v hvw
  rw [Option.mem_toList.mp hw, Option.all_some, List.all_eq_true] at hps
  exact eq_of_beq (hps x hx)

theorem readsBack_background : background.ReadsBack := by
  refine readsBack_of_parts (by decide) (by decide) ?_
  intro l v hv hp _
  refine ⟨_, Background.longhands_of_expand? rfl (expand?_background_of_proper rfl hp hv), ?_⟩
  refine .cons (fun w hw _ => ?_) (.cons (fun w hw hs => l.agrees_said hw hs)
    (.cons (fun w hw hs => l.agrees_said hw hs)
      (.cons (fun w hw hs => l.agrees_said hw hs) (.cons (fun w hw hs => ?_) .nil))))
  · exact .inl (by rw [hw, Option.getD_some])
  · simpa [hw] using Background.agrees_positionParts hs

end Creation
end Stylesheet
