import Stylesheet.Proofs.Shorthand.Creation
/-!
Shorthands with a value for each side, and borders, whose parts are such shorthands in turn. Both
read back as their parts; of a border each part has to be what its name says
(`Creation.readsBack_sides`, `Creation.readsBack_border`). No fewer values stand for four sides than
the minimal ones (`Sides.minimal_shortest`).
-/

namespace Stylesheet

namespace Value

variable {v w : Value} {vs : List Value}

theorem components_of_not_isList (h : v.isList = false) : v.components = [v] := by
  cases v <;> simp_all [isList, components]

-- Joining words that are no lists and taking them apart again changes nothing.
theorem components_spaceList (hn : vs ≠ []) (h : ∀ v ∈ vs, v.isList = false) :
    (spaceList vs).components = vs := by
  cases vs
  case nil => contradiction
  case cons v vs =>
    cases vs
    case nil => exact components_of_not_isList (h v List.mem_cons_self)
    case cons => rfl

theorem isCommaList_spaceList (h : ∀ v ∈ vs, v.isList = false) :
    (spaceList vs).isCommaList = false := by
  unfold spaceList join
  split
  · rename_i v
    have := h v List.mem_cons_self
    cases v <;> simp_all [isList, isCommaList]
  · rfl

theorem isCssWide_spaceList (h : ∀ v ∈ vs, v.isCssWide = false) :
    (spaceList vs).isCssWide = false := by
  unfold spaceList join
  split
  · exact h _ List.mem_cons_self
  · rfl

end Value

open Declaration

namespace Sides

variable {d : Declaration} {n : String} {ds : List Declaration}

theorem not_mem_shorthands_of_mem_longhands :
    ∀ family ∈ families, ∀ n ∈ longhands family, n ∉ Declaration.shorthands := by
  decide

theorem not_mem_border_shorthands : ∀ family ∈ families, family ∉ Border.shorthands := by
  decide

theorem longhands_of_expand? (hb : d.name ∉ Border.shorthands) (hs : expand? d = some ds) :
    d.longhands = ds := by
  have hn : ∀ e ∈ ds, e.name ∉ Declaration.shorthands := by
    intro e he
    simp only [expand?, Option.ite_none_left_eq_some, Option.map_eq_some_iff] at hs
    obtain ⟨hf, sides, _, hd⟩ := hs
    refine not_mem_shorthands_of_mem_longhands d.name ?_ _ (name_of_mem_zipWith (hd ▸ he))
    simp_all
  simp only [Declaration.shorthands, List.mem_append, List.mem_cons, List.not_mem_nil, or_false,
    not_or] at hn
  rw [Declaration.longhands, expandBy_of_none (expand?_border_of_name hb), List.flatMap_singleton,
    expandBy_of_some hs, ← List.flatMap_assoc,
    flatMap_expandBy fun e he => expand?_font_of_name (hn e he).2.1,
    flatMap_expandBy fun e he => expand?_background_of_name (hn e he).2.2]

-- One value alone counts for every side.
theorem expand?_of_not_isList (h : d.name ∈ families) (hv : d.value.isList = false) :
    expand? d = some ((longhands d.name).map (d.derive · d.value)) := by
  have hc : d.value.isCommaList = false := by
    cases hd : d.value <;> simp_all [Value.isList, Value.isCommaList]
  simp [expand?, h, hc, Value.components_of_not_isList hv, ofList?, longhands, names, toList]

theorem longhands_of_not_isList (h : d.name ∈ families) (hv : d.value.isList = false) :
    d.longhands = (longhands d.name).map (d.derive · d.value) :=
  longhands_of_expand? (not_mem_border_shorthands _ h) (expand?_of_not_isList h hv)

/-! ### The fewest values -/

section

variable {α : Type} [BEq α] [LawfulBEq α]

theorem ofList?_minimal_of_lawful (s : Sides α) : ofList? s.minimal = some s := by
  obtain ⟨top, right, bottom, left⟩ := s
  unfold minimal
  split
  case isTrue hl =>
    obtain rfl : right = left := eq_of_beq hl
    split
    case isTrue hb =>
      obtain rfl : top = bottom := eq_of_beq hb
      split
      case isTrue hr =>
        obtain rfl : top = right := eq_of_beq hr
        rfl
      case isFalse => rfl
    case isFalse => rfl
  case isFalse => rfl

-- A side is given a value of its own only if it differs from the one that it is as otherwise, and
-- then it has one in every list that stands for the sides.
theorem length_minimal_le {s : Sides α} {values : List α} (h : ofList? values = some s) :
    s.minimal.length ≤ values.length := by
  unfold ofList? at h
  split at h
  case h_1 all =>
    cases h
    simp [minimal]
  case h_2 vertical horizontal =>
    cases h
    simp only [minimal, beq_self_eq_true, if_true]
    split <;> simp
  case h_3 top horizontal bottom =>
    cases h
    simp only [minimal, beq_self_eq_true, if_true]
    split_ifs <;> simp
  case h_4 top right bottom left =>
    cases h
    unfold minimal
    split_ifs <;> simp [toList]
  case h_5 => cases h

-- The minimal values stand for the sides, and no fewer values do. So the values that some sides
-- were given with are never made more.
theorem minimal_shortest (s : Sides α) :
    ofList? s.minimal = some s ∧
    (∀ values, ofList? values = some s → s.minimal.length ≤ values.length) ∧
    ∀ values : List α, 1 ≤ values.length → values.length ≤ 4 →
      ∃ t, ofList? values = some t ∧ t.minimal.length ≤ values.length := by
  refine ⟨ofList?_minimal_of_lawful s, fun values h => length_minimal_le h, ?_⟩
  intro values hne hle
  have ⟨t, ht⟩ : ∃ t, ofList? values = some t := by
    match values with
    | [_] | [_, _] | [_, _, _] | [_, _, _, _] => exact ⟨_, rfl⟩
  exact ⟨t, ht, length_minimal_le ht⟩

-- The left side differs from the right one, though the bottom is as the top.
theorem minimal_shortest_left : LawfulBEq String ∧
    ofList? (Sides.mk "1px" "2px" "1px" "4px").minimal = some ⟨"1px", "2px", "1px", "4px"⟩ ∧
    ∀ values, ofList? values = some (Sides.mk "1px" "2px" "1px" "4px") → 4 ≤ values.length :=
  have ⟨hinverse, hleast, _⟩ := minimal_shortest (Sides.mk "1px" "2px" "1px" "4px")
  ⟨inferInstance, hinverse, hleast⟩

end

-- The fewest values that stand for four sides stand for them.
theorem ofList?_minimal (s : Sides Value) :
    ∃ t, ofList? s.minimal = some t ∧ s.top.Agrees t.top ∧ s.right.Agrees t.right ∧
      s.bottom.Agrees t.bottom ∧ s.left.Agrees t.left := by
  have hsymm {v w : Value} (h : v == w) : w.same v := by rwa [Value.same_comm]
  unfold minimal
  split
  case isTrue hl =>
    split
    case isTrue hb =>
      split
      case isTrue hr =>
        have h := hsymm hr
        refine ⟨_, rfl, .inl rfl, .inr h, .inr (hsymm hb), .inr ?_⟩
        exact Value.same_trans (hsymm hl) h
      case isFalse => exact ⟨_, rfl, .inl rfl, .inl rfl, .inr (hsymm hb), .inr (hsymm hl)⟩
    case isFalse => exact ⟨_, rfl, .inl rfl, .inl rfl, .inl rfl, .inr (hsymm hl)⟩
  case isFalse => exact ⟨_, rfl, .inl rfl, .inl rfl, .inl rfl, .inl rfl⟩

theorem mem_of_mem_minimal {s : Sides Value} {v : Value} (h : v ∈ s.minimal) : v ∈ s.toList := by
  unfold minimal at h
  simp only [toList] at h ⊢
  grind

theorem minimal_ne_nil (s : Sides Value) : s.minimal ≠ [] := by
  unfold minimal
  simp only [toList]
  grind

theorem nodup_longhands : ∀ family ∈ families, (longhands family).Nodup := by
  decide

-- What sides are put together from is what is declared for them then.
theorem expand?_minimal {family : String} {s : Sides Value} (h : family ∈ families)
    (hv : ∀ v ∈ s.toList, v.isList = false) :
    ∃ t : Sides Value, expand? (d.derive family (.spaceList s.minimal)) =
        some (List.zipWith (d.derive family (.spaceList s.minimal)).derive (longhands family)
          t.toList) ∧
      s.top.Agrees t.top ∧ s.right.Agrees t.right ∧ s.bottom.Agrees t.bottom ∧
      s.left.Agrees t.left := by
  have hm : ∀ v ∈ s.minimal, v.isList = false := fun v hv' => hv v (mem_of_mem_minimal hv')
  obtain ⟨t, ht, ha⟩ := ofList?_minimal s
  refine ⟨t, ?_, ha⟩
  simp [expand?, derive, h, Value.isCommaList_spaceList hm,
    Value.components_spaceList (minimal_ne_nil s) hm, ht]

end Sides

namespace Creation

def sides (family : String) : Creation where
  shorthand := family
  names := Sides.longhands family
  value? := Sides.value? family

theorem readsBack_sides {family : String} (hf : family ∈ Sides.families) :
    (sides family).ReadsBack := by
  refine readsBack_of_parts (Sides.not_mem_shorthands_of_mem_longhands family hf)
    (Sides.nodup_longhands family hf) ?_
  intro l v hv _ _
  simp only [sides, Sides.value?, bind, Option.bind_eq_some_iff] at hv
  obtain ⟨top, ht, right, hr, bottom, hb, left, hl, hv⟩ := hv
  simp only [Option.ite_none_left_eq_some, Bool.not_eq_true, Option.some.injEq] at hv
  obtain ⟨ha, _, rfl⟩ := hv
  have hn {n : String} {w : Value} (hw : l.value? n = some w) : w.isList = false :=
    Longhands.not_of_any ha hw
  obtain ⟨t, he, hat, har, hab, hal⟩ := @Sides.expand?_minimal l.first.toDeclaration family
    ⟨top, right, bottom, left⟩ hf (by simp [Sides.toList, hn ht, hn hr, hn hb, hn hl])
  have hval {n : String} {v w : Value} (hv : l.value? n = some v) (ha : v.Agrees w) :
      ∀ v, l.value? n = some v → (sides family).spelled n v → v.Agrees w := by
    intro v' hv' _
    rw [hv, Option.some.injEq] at hv'
    exact hv' ▸ ha
  refine ⟨t.toList, Sides.longhands_of_expand? (Sides.not_mem_border_shorthands family hf) he, ?_⟩
  exact .cons (hval ht hat) (.cons (hval hr har) (.cons (hval hb hab) (.cons (hval hl hal) .nil)))

end Creation

namespace Sides

variable {d : Declaration} {n : String}

theorem disjoint_longhands : ∀ family ∈ families, ∀ other ∈ families,
    ∀ n ∈ longhands family, n ∈ longhands other → family = other := by
  decide

theorem longhands_of_expand?_none (h : d.name ∈ families) (hs : expand? d = none) :
    d.longhands = [d] := by
  obtain ⟨hf, hg⟩ := (by decide : ∀ family ∈ families, family ≠ "font" ∧ family ≠ "background") _ h
  simp [Declaration.longhands, expandBy_of_none hs, expandBy_of_none (expand?_font_of_name hf),
    expandBy_of_none (expand?_border_of_name (not_mem_border_shorthands _ h)),
    expandBy_of_none (expand?_background_of_name hg)]

theorem mem_longhands_of_declares (h : d.name ∈ families) (hn : n ∉ Declaration.shorthands)
    (hd : d.declares n) : n ∈ longhands d.name := by
  simp only [declares, List.any_eq_true, beq_iff_eq] at hd
  obtain ⟨e, he, rfl⟩ := hd
  cases hs : expand? d
  case none =>
    rw [longhands_of_expand?_none h hs, List.mem_singleton] at he
    exact absurd (he ▸ List.mem_append_left _ (List.mem_append_right _ h)) hn
  case some ds =>
    rw [longhands_of_expand? (not_mem_border_shorthands _ h) hs] at he
    simp only [expand?, Option.ite_none_left_eq_some, Option.map_eq_some_iff] at hs
    obtain ⟨_, sides, _, hd⟩ := hs
    exact name_of_mem_zipWith (hd ▸ he)

theorem last?_longhands_of_not_isList (h : d.name ∈ families) (hv : d.value.isList = false)
    (hn : n ∈ longhands d.name) : last? n d.longhands = some (d.derive n d.value) := by
  rw [longhands_of_not_isList h hv]
  exact last?_map_derive hn

-- A side is declared by the last declaration of its family.
theorem last?_expanded_of_families {ds : List Declaration} {family : String} {w : Declaration}
    (hds : ∀ d ∈ ds, d.name ∈ families) (hn : n ∈ longhands family)
    (hw : last? family ds = some w) (hv : w.value.isList = false) :
    last? n (expanded ds) = some (w.derive n w.value) := by
  have hwn := name_of_last? hw
  have hwf := hds w (mem_of_last? hw)
  have hlast := last?_longhands_of_not_isList hwf hv (hwn.symm ▸ hn)
  have howner : ∀ d ∈ ds, d.declares n → d.name = family := by
    intro d hd hdn
    have hs := not_mem_shorthands_of_mem_longhands w.name hwf n (hwn.symm ▸ hn)
    have hmem := mem_longhands_of_declares (hds d hd) hs hdn
    exact disjoint_longhands _ (hds d hd) _ (hwn ▸ hwf) n hmem hn
  have hdecl : w.declares n := by
    rw [← Bool.not_eq_false, ← last?_longhands_eq_none_iff, hlast]
    simp
  rw [last?_expanded_of_owner howner hw hdecl, hlast]

end Sides

namespace Border

-- The parts of a border, each with the value that is there for it.
def partsOf (d : Declaration) (value? : String → Option Value) : List Declaration :=
  longhands.filterMap fun n => (value? n).map (d.derive n)

theorem find?_filterMap_aspects {g : Aspect → Option Value} (a : Aspect) {as : List Aspect}
    (h : ∀ a ∈ as, ∀ v, g a = some v → aspectOf? v = some a) :
    (as.filterMap g).find? (aspectOf? · == some a) = if a ∈ as then g a else none := by
  induction as
  case nil => rfl
  case cons b as ih =>
    obtain ⟨hb, hr⟩ := List.forall_mem_cons.mp h
    cases hg : g b
    case none =>
      rw [List.filterMap_cons_none hg, ih hr]
      by_cases hab : a = b
      · simp [hab, hg]
      · simp [hab]
    case some v =>
      rw [List.filterMap_cons_some hg, List.find?_cons, hb v hg]
      by_cases hab : a = b
      · simp [hab, hg]
      · have : (some b == some a) = false := by simpa using Ne.symm hab
        simp [this, hab, ih hr]

theorem longhands_subset_families : ∀ n ∈ longhands, n ∈ Sides.families := by
  decide

theorem exists_of_mem_partsOf {d p : Declaration} {value? : String → Option Value}
    (h : p ∈ partsOf d value?) : ∃ n ∈ longhands, ∃ v, p = d.derive n v := by
  obtain ⟨n, hn, hp⟩ := List.mem_filterMap.mp h
  obtain ⟨v, -, hv⟩ := Option.map_eq_some_iff.mp hp
  exact ⟨n, hn, v, hv.symm⟩

-- If each value is what the name of its part says, the border of them has these parts.
theorem expand?_of_proper {d : Declaration} {value? : String → Option Value} (hd : d.name = "border")
    (hv : d.value = .spaceList (longhands.filterMap value?))
    (hn : longhands.filterMap value? ≠ []) (hl : ∀ n v, value? n = some v → v.isList = false)
    (hw : ∀ n v, value? n = some v → v.isCssWide = false)
    (hp : ∀ a ∈ aspects, ∀ v, value? ("border-" ++ a.name) = some v → aspectOf? v = some a) :
    expand? d = some (partsOf d value?) := by
  have hm : ∀ v ∈ longhands.filterMap value?, v.isList = false := by
    intro v hv
    obtain ⟨n, _, h⟩ := List.mem_filterMap.mp hv
    exact hl n v h
  have hc : d.value.components = longhands.filterMap value? :=
    hv ▸ Value.components_spaceList hn hm
  have hcw : d.value.isCssWide = false := by
    refine hv ▸ Value.isCssWide_spaceList fun v hv => ?_
    obtain ⟨n, _, h⟩ := List.mem_filterMap.mp hv
    exact hw n v h
  have hparts : (aspects.filterMap fun a => (d.value.components.find? (aspectOf? · == some a)).map
      (d.derive (d.name ++ "-" ++ a.name))) = partsOf d value? := by
    rw [partsOf, longhands, List.filterMap_map, hc, hd]
    refine List.filterMap_congr fun a ha => ?_
    rw [longhands, List.filterMap_map]
    have := find?_filterMap_aspects a hp
    rw [if_pos ha] at this
    exact congrArg (Option.map _) this
  have hne : partsOf d value? ≠ [] := by
    intro he
    refine hn (List.filterMap_eq_nil_iff.mpr fun n hmem => ?_)
    simpa using List.filterMap_eq_nil_iff.mp he n hmem
  have hb : d.name ∈ shorthands := by rw [hd]; decide
  have hcm : d.value.isCommaList = false := hv ▸ Value.isCommaList_spaceList hm
  simp only [expand?, hparts]
  simp [hb, hcw, hcm, hne]

theorem longhands_of_expand? {d : Declaration} {ds : List Declaration} (he : expand? d = some ds)
    (hn : ∀ e ∈ ds, e.name ∉ shorthands) : d.longhands = expanded ds := by
  rw [Declaration.longhands, expandBy_of_some he, expanded]
  refine List.flatMap_congr fun e hmem => ?_
  rw [Declaration.longhands, expandBy_of_none (expand?_border_of_name (hn e hmem)),
    List.flatMap_singleton]

end Border

namespace Creation

def border : Creation where
  shorthand := "border"
  names := Border.longhands
  value? := Border.value?
  proper l := Border.aspects.all fun a =>
    (l.value? ("border-" ++ a.name)).all (Border.aspectOf? · == some a)

-- Proper values come back from the border that is made of them.
theorem longhands_border {l : Longhands} (ha : l.any (fun v => v.isList || v.isCssWide) = false)
    (hne : Border.longhands.filterMap l.value? ≠ []) (hp : border.proper l) :
    let new := l.first.derive "border" (.spaceList (Border.longhands.filterMap l.value?))
    new.longhands = expanded (Border.partsOf new l.value?) := by
  intro new
  have hor {m : String} {w : Value} (hw : l.value? m = some w) :
      w.isList = false ∧ w.isCssWide = false := by
    simpa using Longhands.not_of_any ha hw
  refine Border.longhands_of_expand? (Border.expand?_of_proper rfl rfl hne (fun _ _ h => (hor h).1)
    (fun _ _ h => (hor h).2) fun a hmem v hv => ?_) fun p hmem => ?_
  · simp only [border, List.all_eq_true] at hp
    simpa [hv] using hp a hmem
  · obtain ⟨m, hm, _, rfl⟩ := Border.exists_of_mem_partsOf hmem
    exact Sides.not_mem_border_shorthands _ (Border.longhands_subset_families m hm)

theorem readsBack_border : border.ReadsBack := by
  intro rs l v hm hp _ n hn d hd _
  obtain ⟨hv, hfirst, _, hl⟩ := of_made? hm
  simp only [border, Border.value?, Option.ite_none_left_eq_some, Bool.not_eq_true,
    Option.some.injEq] at hv
  obtain ⟨ha, rfl⟩ := hv
  have hne : Border.longhands.filterMap l.value? ≠ [] := by
    intro hnil
    have := List.filterMap_eq_nil_iff.mp hnil _ (name_of_mem_taken hfirst)
    rw [hl, Option.map_eq_none_iff, last?_eq_none_iff] at this
    exact this _ hfirst rfl
  have htaken : ∀ d ∈ border.taken rs.declarations, d.name ∈ Sides.families :=
    fun d hd => Border.longhands_subset_families _ (name_of_mem_taken hd)
  -- The part that declares the name, and the value that counts for it.
  obtain ⟨t, ht, hdt⟩ := List.mem_flatMap.mp (mem_of_last? hd)
  have hdecl : t.declares n := List.any_eq_true.mpr ⟨d, hdt, by simpa using name_of_last? hd⟩
  have hside := Sides.mem_longhands_of_declares (htaken t ht) hn hdecl
  obtain ⟨w, hw⟩ : ∃ w, last? t.name (border.taken rs.declarations) = some w := by
    rw [← Option.isSome_iff_exists, ← Option.ne_none_iff_isSome, Ne, last?_eq_none_iff]
    exact fun h => h t ht rfl
  have hvalue : l.value? t.name = some w.value := by rw [hl, hw]; rfl
  have hlist : w.value.isList = false := by
    simpa using (Bool.or_eq_false_iff.mp (Longhands.not_of_any ha hvalue)).1
  -- It declares its sides, whether it stands alone or comes from the border.
  have halone := Sides.last?_expanded_of_families htaken hside hw hlist
  rw [hd, Option.some.injEq] at halone
  let new := l.first.derive "border" (.spaceList (Border.longhands.filterMap l.value?))
  have hpart : last? t.name (Border.partsOf new l.value?) = some (new.derive t.name w.value) := by
    have hname : t.name ∈ Border.longhands := name_of_mem_taken ht
    rw [Border.partsOf, last?_filterMap_derive hname, hvalue]
    rfl
  have hparts : ∀ p ∈ Border.partsOf new l.value?, p.name ∈ Sides.families := by
    intro p hmem
    obtain ⟨m, hm, _, rfl⟩ := Border.exists_of_mem_partsOf hmem
    exact Border.longhands_subset_families m hm
  have hborder := Sides.last?_expanded_of_families hparts hside hpart hlist
  exact ⟨_, (congrArg (last? n) (longhands_border ha hne hp)).trans hborder,
    .inl (by rw [halone]; rfl)⟩

end Creation
end Stylesheet
