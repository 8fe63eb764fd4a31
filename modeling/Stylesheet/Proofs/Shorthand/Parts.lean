import Stylesheet.Proofs.Shorthand.Declared
import Stylesheet.Proofs.Value.Same
/-!
The parts of a shorthand. Whatever is expanded, its parts are important if it is, and no value in
them is `nan` unless one was in it. Main statement: `Declaration.Derives.of_mem_longhands`.
-/

namespace Stylesheet

namespace Value

variable {v w : Value} {vs : List Value} {separator : Separator}

theorem sameItems_self_iff : sameItems vs vs ↔ ∀ v ∈ vs, v.same v := by
  induction vs
  case nil => simp [sameItems]
  case cons ih => simp [sameItems, ih]

theorem same_self_join : (join separator vs).same (join separator vs) ↔ ∀ v ∈ vs, v.same v := by
  simp only [join]
  split
  · simp
  · simpa [same] using sameItems_self_iff

theorem same_self_of_mem_components (h : v.same v) (hw : w ∈ v.components) : w.same w := by
  unfold components at hw
  split at hw
  · exact sameItems_self_iff.mp (by simpa [same] using h) w hw
  · rwa [List.mem_singleton.mp hw]

end Value

theorem Sides.mem_of_ofList? {α : Type} {xs : List α} {sides : Sides α}
    (h : ofList? xs = some sides) {x : α} (hx : x ∈ sides.toList) : x ∈ xs := by
  fun_cases ofList? xs
  case case5 => simp_all [ofList?]
  all_goals
    simp only [ofList?, Option.some.injEq] at h
    subst h
    simp only [toList, List.mem_cons, List.not_mem_nil, or_false] at hx ⊢
    grind

namespace Font

theorem same_self_of_splitFallbacks? {v first : Value} {fallbacks : List Value}
    (h : splitFallbacks? v = some (first, fallbacks)) (hv : v.same v) :
    first.same first ∧ ∀ w ∈ fallbacks, w.same w := by
  unfold splitFallbacks? at h
  split at h
  · cases h
  · cases h
    simpa [Value.same, Value.sameItems, Value.sameItems_self_iff] using hv
  · cases h
    simpa using hv

theorem same_self_withFallbacks {vs fallbacks : List Value} (hv : ∀ v ∈ vs, v.same v)
    (hf : ∀ v ∈ fallbacks, v.same v) :
    (withFallbacks vs fallbacks).same (withFallbacks vs fallbacks) := by
  refine Value.same_self_join.mpr (List.forall_mem_cons.mpr ⟨?_, hf⟩)
  exact Value.same_self_join.mpr hv

theorem same_self_splitSize {v : Value} (h : v.same v) :
    (splitSize v).1.same (splitSize v).1 ∧ (splitSize v).2.same (splitSize v).2 := by
  unfold splitSize
  split
  · simpa [Value.same] using h
  · exact ⟨h, by simp [normal, Value.same]⟩

theorem same_self_of_parts? {v : Value} {values : List Value} (h : parts? v = some values)
    (hv : v.same v) : ∀ w ∈ values, w.same w := by
  simp only [parts?, bind, Option.bind_eq_some_iff] at h
  obtain ⟨⟨head, fallbacks⟩, hs, h⟩ := h
  obtain ⟨hh, hf⟩ := same_self_of_splitFallbacks? hs hv
  have hc (w : Value) (hw : w ∈ head.components) : w.same w :=
    Value.same_self_of_mem_components hh hw
  have hm (p : Value → Bool) :
      let w := ((head.components.takeWhile (!isSizePart ·)).find? p).getD normal
      w.same w := by
    cases hw : (head.components.takeWhile (!isSizePart ·)).find? p
    case none => simp [normal, Value.same]
    case some w => exact hc w ((List.takeWhile_prefix _).subset (List.mem_of_find?_eq_some hw))
  dsimp only at h
  split at h
  · rename_i size family hd
    have hr (w : Value) (hw : w ∈ size :: family) : w.same w :=
      hc w ((List.dropWhile_suffix _).subset (hd ▸ hw))
    obtain ⟨hz, hl⟩ := same_self_splitSize (hr size List.mem_cons_self)
    simp only [Option.ite_none_left_eq_some, Option.some.injEq] at h
    rw [← h.2]
    simp only [List.forall_mem_cons, List.not_mem_nil, false_implies, implies_true, and_true]
    refine ⟨hm _, hm _, hm _, hz, hl, same_self_withFallbacks (fun w hw => ?_) hf⟩
    exact hr w (List.mem_cons_of_mem _ hw)
  · cases h

end Font

theorem Background.same_self_positionOf {vs : List Value} (h : ∀ v ∈ vs, v.same v) :
    (positionOf vs).same (positionOf vs) := by
  unfold positionOf
  split
  · decide
  · exact Value.same_self_join.mpr (by simpa using h)
  · exact Value.same_self_join.mpr h

namespace Declaration

-- What a part takes over from the shorthand that it is a part of.
structure Derives (d e : Declaration) : Prop where
  important : e.important = d.important
  same_self : d.value.same d.value → e.value.same e.value

namespace Derives

variable {d e f : Declaration}

theorem refl (d : Declaration) : d.Derives d :=
  ⟨rfl, id⟩

theorem trans (h₁ : d.Derives e) (h₂ : e.Derives f) : d.Derives f :=
  ⟨h₂.important.trans h₁.important, h₂.same_self ∘ h₁.same_self⟩

theorem derive {name : String} {v : Value} (h : d.value.same d.value → v.same v) :
    d.Derives (d.derive name v) :=
  ⟨rfl, h⟩

theorem of_mem_zipWith {names : List String} {values : List Value}
    (h : d.value.same d.value → ∀ v ∈ values, v.same v)
    (he : e ∈ List.zipWith d.derive names values) : d.Derives e := by
  induction names generalizing values
  case nil => simp at he
  case cons name names ih =>
    cases values
    case nil => simp at he
    case cons v values =>
      rw [List.zipWith_cons_cons, List.mem_cons] at he
      rcases he with rfl | he
      · exact derive fun hd => h hd v List.mem_cons_self
      · exact ih (fun hd w hw => h hd w (List.mem_cons_of_mem _ hw)) he

theorem of_mem_expandBy {expand? : Declaration → Option (List Declaration)}
    (h : ∀ {ds}, expand? d = some ds → ∀ e ∈ ds, d.Derives e) (he : e ∈ expandBy expand? d) :
    d.Derives e := by
  cases hd : expand? d
  case none =>
    rw [expandBy_of_none hd, List.mem_singleton] at he
    exact he ▸ refl d
  case some ds => exact h hd e (expandBy_of_some hd ▸ he)

theorem of_border {ds : List Declaration} (h : Border.expand? d = some ds) :
    ∀ e ∈ ds, d.Derives e := by
  intro e he
  simp only [Border.expand?, Option.ite_none_left_eq_some, Option.some.injEq] at h
  rw [← h.2.2, List.mem_filterMap] at he
  obtain ⟨aspect, _, ha⟩ := he
  obtain ⟨v, hv, hd⟩ := Option.map_eq_some_iff.mp ha
  refine hd ▸ derive fun hs => ?_
  exact Value.same_self_of_mem_components hs (List.mem_of_find?_eq_some hv)

theorem of_sides {ds : List Declaration} (h : Sides.expand? d = some ds) :
    ∀ e ∈ ds, d.Derives e := by
  intro e he
  simp only [Sides.expand?, Option.ite_none_left_eq_some, Option.map_eq_some_iff] at h
  obtain ⟨_, sides, hs, hd⟩ := h
  refine of_mem_zipWith (fun hv v hm => ?_) (hd ▸ he)
  exact Value.same_self_of_mem_components hv (Sides.mem_of_ofList? hs hm)

theorem of_font {ds : List Declaration} (h : Font.expand? d = some ds) : ∀ e ∈ ds, d.Derives e := by
  intro e he
  simp only [Font.expand?, Option.ite_none_left_eq_some, Option.map_eq_some_iff] at h
  obtain ⟨_, values, hv, hd⟩ := h
  exact of_mem_zipWith (fun hs => Font.same_self_of_parts? hv hs) (hd ▸ he)

theorem of_background {ds : List Declaration} (h : Background.expand? d = some ds) :
    ∀ e ∈ ds, d.Derives e := by
  intro e he
  simp only [Background.expand?, Option.ite_none_left_eq_some, Option.some.injEq] at h
  rw [← h.2.2] at he
  refine of_mem_zipWith (fun hs => ?_) he
  have hc (v : Value) (hv : v ∈ d.value.components) : v.same v :=
    Value.same_self_of_mem_components hs hv
  have hf (p : Value → Bool) (initial : String) :
      let v := (d.value.components.find? p).getD (.keyword initial)
      v.same v := by
    cases hv : d.value.components.find? p
    case none => simp [Value.same]
    case some v => exact hc v (List.mem_of_find?_eq_some hv)
  simp only [List.forall_mem_cons, List.not_mem_nil, false_implies, implies_true, and_true]
  refine ⟨hf .., hf .., hf .., hf .., Background.same_self_positionOf fun v hv => ?_⟩
  exact hc v (List.mem_filter.mp hv).1

-- Each part of a shorthand derives from it, also where a part is a shorthand in turn.
theorem of_mem_longhands (h : e ∈ d.longhands) : d.Derives e := by
  simp only [longhands, List.mem_flatMap] at h
  obtain ⟨f₁, h₁, f₂, h₂, f₃, h₃, h₄⟩ := h
  exact (of_mem_expandBy of_border h₁).trans <| (of_mem_expandBy of_sides h₂).trans <|
    (of_mem_expandBy of_font h₃).trans (of_mem_expandBy of_background h₄)

end Derives
end Declaration
end Stylesheet
