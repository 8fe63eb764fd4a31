import Stylesheet.Proofs.Shorthand.CreateAll
/-!
Expanding and creating again. What an expansion puts in place, no earlier expansion takes apart, and
what a creation puts in place, no earlier creation takes in; a declaration that was left as it is
will be left again. Main statements: `RuleSet.expandAll_expandAll`, `RuleSet.createAll_createAll`.
-/

namespace Stylesheet

namespace Declaration

variable {d e : Declaration} {ds : List Declaration}

/-! ### Expanding -/

-- A declaration that no expansion takes apart.
structure IsExpanded (d : Declaration) : Prop where
  border : Border.expand? d = none
  sides : Sides.expand? d = none
  font : Font.expand? d = none
  background : Background.expand? d = none

theorem isExpanded_of_name (h : d.name ∉ shorthands) : d.IsExpanded := by
  simp only [shorthands, List.mem_append, List.mem_cons, List.not_mem_nil, or_false, not_or] at h
  obtain ⟨⟨hb, hs⟩, hf, hg⟩ := h
  exact ⟨expand?_border_of_name hb, expand?_sides_of_name hs, expand?_font_of_name hf,
    expand?_background_of_name hg⟩

-- A border comes to borders of its sides or to parts of these, which are no borders.
theorem expand?_border_of_mem (h : Border.expand? d = some ds) :
    ∀ e ∈ ds, Border.expand? e = none := by
  have hnames : ∀ name ∈ Border.shorthands, ∀ a ∈ Border.aspects,
      name ++ "-" ++ a.name ∉ Border.shorthands := by
    decide
  simp only [Border.expand?, Option.ite_none_left_eq_some, Option.some.injEq] at h
  obtain ⟨hn, -, rfl⟩ := h
  intro e he
  obtain ⟨a, ha, hea⟩ := List.mem_filterMap.mp he
  obtain ⟨v, -, rfl⟩ := Option.map_eq_some_iff.mp hea
  refine expand?_border_of_name (hnames _ ?_ a ha)
  simp_all

theorem isExpanded_of_sides (h : Sides.expand? d = some ds) : ∀ e ∈ ds, e.IsExpanded := by
  simp only [Sides.expand?, Option.ite_none_left_eq_some, Option.map_eq_some_iff] at h
  obtain ⟨hn, sides, -, rfl⟩ := h
  intro e he
  refine isExpanded_of_name (Sides.not_mem_shorthands_of_mem_longhands d.name ?_ _
    (name_of_mem_zipWith he))
  simp_all

theorem isExpanded_of_font (h : Font.expand? d = some ds) : ∀ e ∈ ds, e.IsExpanded := by
  have hnames : ∀ n ∈ Font.longhands, n ∉ shorthands := by decide
  simp only [Font.expand?, Option.ite_none_left_eq_some, Option.map_eq_some_iff] at h
  obtain ⟨-, values, -, rfl⟩ := h
  exact fun e he => isExpanded_of_name (hnames _ (name_of_mem_zipWith he))

theorem isExpanded_of_background (h : Background.expand? d = some ds) :
    ∀ e ∈ ds, e.IsExpanded := by
  have hnames : ∀ n ∈ Background.longhands, n ∉ shorthands := by decide
  simp only [Background.expand?, Option.ite_none_left_eq_some, Option.some.injEq] at h
  obtain ⟨-, -, rfl⟩ := h
  exact fun e he => isExpanded_of_name (hnames _ (name_of_mem_zipWith he))

-- What holds of a declaration that is left, and of all that it may be expanded to, holds of what is
-- in its place.
theorem of_mem_expandBy {expand? : Declaration → Option (List Declaration)}
    {p : Declaration → Prop} (h : ∀ {ds}, expand? d = some ds → ∀ e ∈ ds, p e)
    (hd : expand? d = none → p d) (he : e ∈ expandBy expand? d) : p e := by
  cases hx : expand? d
  case none =>
    rw [expandBy_of_none hx, List.mem_singleton] at he
    exact he ▸ hd hx
  case some ds => exact h hx e (expandBy_of_some hx ▸ he)

-- After all expansions there is nothing left for any of them.
theorem isExpanded_of_mem_longhands (h : e ∈ d.longhands) : e.IsExpanded := by
  simp only [longhands, List.mem_flatMap] at h
  obtain ⟨f₁, h₁, f₂, h₂, f₃, h₃, h₄⟩ := h
  have hb : Border.expand? f₁ = none :=
    of_mem_expandBy (p := fun e => Border.expand? e = none) expand?_border_of_mem id h₁
  have hs : Border.expand? f₂ = none ∧ Sides.expand? f₂ = none :=
    of_mem_expandBy (p := fun e => Border.expand? e = none ∧ Sides.expand? e = none)
      (fun hx e he => ⟨(isExpanded_of_sides hx e he).border, (isExpanded_of_sides hx e he).sides⟩)
      (fun hx => ⟨hb, hx⟩) h₂
  have hf : f₃.IsExpanded ∨ f₃ = f₂ ∧ Font.expand? f₂ = none :=
    of_mem_expandBy (p := fun e => e.IsExpanded ∨ e = f₂ ∧ Font.expand? f₂ = none)
      (fun hx e he => .inl (isExpanded_of_font hx e he)) (fun hx => .inr ⟨rfl, hx⟩) h₃
  refine of_mem_expandBy isExpanded_of_background (fun hx => ?_) h₄
  rcases hf with hf | ⟨rfl, hf⟩
  · exact hf
  · exact ⟨hs.1, hs.2, hf, hx⟩

end Declaration

/-! ### Creating -/

theorem Longhands.collect?_congr {names : List String} {rs ss : RuleSet}
    (h : rs.filter (names.contains ·.name) = ss.filter (names.contains ·.name)) :
    collect? names rs = collect? names ss := by
  rw [collect?, collect?, h]

namespace RuleSet

variable {rs : RuleSet} {r new : Rule} {isOld p : Rule → Bool}

theorem mem_replaceWhere : r ∈ rs.replaceWhere isOld new ↔ r = new ∨ r ∈ rs ∧ isOld r = false := by
  have hfront {r : Rule} (h : r ∈ rs.takeWhile (!isOld ·)) : isOld r = false := by
    simpa using List.all_eq_true.mp List.all_takeWhile r h
  simp only [replaceWhere, List.mem_append, List.mem_cons, List.mem_filter, Bool.not_eq_true']
  constructor
  case mp =>
    rintro (h | rfl | ⟨h, hr⟩)
    · exact .inr ⟨(List.takeWhile_prefix _).subset h, hfront h⟩
    · exact .inl rfl
    · exact .inr ⟨(List.dropWhile_suffix _).subset h, hr⟩
  case mpr =>
    rintro (rfl | ⟨h, hr⟩)
    · exact .inr (.inl rfl)
    · rw [← List.takeWhile_append_dropWhile (p := (!isOld ·)) (l := rs), List.mem_append] at h
      exact h.imp_right fun h => .inr ⟨h, hr⟩

-- Rules of other kinds than the old ones and the new one stay as they are.
theorem filter_replaceWhere (hn : p new = false) (ho : ∀ r, isOld r → p r = false) :
    (rs.replaceWhere isOld new).filter p = rs.filter p := by
  have hkept (rs : RuleSet) : (rs.filter (!isOld ·)).filter p = rs.filter p := by
    rw [List.filter_filter]
    refine List.filter_congr fun r _ => ?_
    cases hr : isOld r
    case false => simp
    case true => simp [ho r hr]
  rw [replaceWhere, List.filter_append, List.filter_cons, hn, if_neg Bool.false_ne_true, hkept,
    ← List.filter_append, List.takeWhile_append_dropWhile]

end RuleSet

namespace Creation

variable {c c' : Creation} {cs : List Creation} {rs : RuleSet} {l : Longhands} {v : Value}
  {next : RuleId}

-- The rules behind a creation.
theorem create_of_made? (h : c.made? rs = some (l, v)) :
    (c.create rs).run next =
      (rs.replaceWhere (c.names.contains ·.name) ⟨l.first.derive c.shorthand v, next⟩,
        next + 1) := by
  simp only [made?, Option.bind_eq_some_iff, Option.map_eq_some_iff, Prod.mk.injEq] at h
  obtain ⟨l, hl, v, hv, rfl, rfl⟩ := h
  simp only [create, RuleSet.createWith, hl, hv]
  rfl

theorem made?_congr {ss : RuleSet}
    (h : rs.filter (c.names.contains ·.name) = ss.filter (c.names.contains ·.name)) :
    c.made? rs = c.made? ss := by
  rw [made?, made?, Longhands.collect?_congr h]

-- A creation that neither takes in nor makes a part of the other.
structure KeepsParts (c' c : Creation) : Prop where
  shorthand : c'.shorthand ∉ c.names
  names : ∀ n ∈ c'.names, n ∉ c.names

theorem made?_create_of_keepsParts (h : c'.KeepsParts c) :
    c.made? ((c'.create rs).run next).1 = c.made? rs := by
  cases hm : c'.made? rs
  case none => rw [create_of_made?_none hm]
  case some made =>
    rw [create_of_made? hm]
    refine made?_congr (RuleSet.filter_replaceWhere ?_ fun r hr => ?_)
    · simpa [Declaration.derive] using h.shorthand
    · have := h.names r.name (by simpa using hr)
      simpa using this

theorem made?_createEach_of_keepsParts (h : ∀ c' ∈ cs, c'.KeepsParts c) :
    c.made? ((createEach cs rs).run next).1 = c.made? rs := by
  induction cs generalizing rs next
  case nil => rfl
  case cons c' cs ih =>
    obtain ⟨hc, hcs⟩ := List.forall_mem_cons.mp h
    exact (ih hcs).trans (made?_create_of_keepsParts hc)

-- A creation leaves itself nothing: either it takes in all of the parts, or it was refused.
theorem made?_create_self (h : c.shorthand ∉ c.names) :
    c.made? ((c.create rs).run next).1 = none := by
  cases hm : c.made? rs
  case none => rwa [create_of_made?_none hm]
  case some made =>
    have hnone : (rs.replaceWhere (c.names.contains ·.name)
        ⟨made.1.first.derive c.shorthand made.2, next⟩).filter (c.names.contains ·.name) = [] := by
      refine List.filter_eq_nil_iff.mpr fun r hr => ?_
      rcases RuleSet.mem_replaceWhere.mp hr with rfl | ⟨-, hr⟩
      · simpa [Declaration.derive] using h
      · simpa using hr
    rw [create_of_made? hm, made?, Longhands.collect?, hnone]
    rfl

-- Nor do the creations behind it, if they keep its parts.
theorem made?_createEach (hs : ∀ c ∈ cs, c.shorthand ∉ c.names)
    (hk : cs.Pairwise fun c c' => c'.KeepsParts c) :
    ∀ c ∈ cs, c.made? ((createEach cs rs).run next).1 = none := by
  induction cs generalizing rs next
  case nil => simp
  case cons c cs ih =>
    obtain ⟨hc, hcs⟩ := List.forall_mem_cons.mp hs
    obtain ⟨hkc, hkcs⟩ := List.pairwise_cons.mp hk
    refine List.forall_mem_cons.mpr ⟨?_, fun c' hc' => ih hcs hkcs c' hc'⟩
    exact (made?_createEach_of_keepsParts hkc).trans (made?_create_self hc)

theorem run_createEach_cons (c : Creation) (cs : List Creation) (rs : RuleSet) (next : RuleId) :
    (createEach (c :: cs) rs).run next =
      (createEach cs ((c.create rs).run next).1).run ((c.create rs).run next).2 :=
  rfl

theorem createEach_of_made?_none (h : ∀ c ∈ cs, c.made? rs = none) :
    (createEach cs rs).run next = (rs, next) := by
  induction cs
  case nil => rfl
  case cons c cs ih =>
    obtain ⟨hc, hcs⟩ := List.forall_mem_cons.mp h
    rw [run_createEach_cons, create_of_made?_none hc]
    exact ih hcs

instance (c c' : Creation) : Decidable (c'.KeepsParts c) :=
  decidable_of_iff (c'.shorthand ∉ c.names ∧ ∀ n ∈ c'.names, n ∉ c.names)
    ⟨fun h => ⟨h.1, h.2⟩, fun h => ⟨h.1, h.2⟩⟩

-- The sides of borders come in front of the border that they are parts of.
theorem keepsParts_all : all.Pairwise fun c c' => c'.KeepsParts c := by
  decide

end Creation

namespace RuleSet

theorem expandWith_of_expand?_none {expand? : Declaration → Option (List Declaration)}
    {rs : RuleSet} {next : RuleId} (h : ∀ d ∈ rs.declarations, expand? d = none) :
    (rs.expandWith expand?).run next = (rs, next) := by
  induction rs
  case nil => rfl
  case cons r rs ih =>
    obtain ⟨hr, hrs⟩ := List.forall_mem_cons.mp h
    have ih := ih hrs
    simp only [StateT.run, expandWith, hr] at ih ⊢
    exact congrArg (fun s : RuleSet × RuleId => (r :: s.1, s.2)) ih

theorem expandAll_of_isExpanded {rs : RuleSet} {next : RuleId}
    (h : ∀ d ∈ rs.declarations, d.IsExpanded) : rs.expandAll.run next = (rs, next) := by
  have hb : (expandBorder rs).run next = (rs, next) :=
    expandWith_of_expand?_none fun d hd => (h d hd).border
  have hs : (expandSides rs).run next = (rs, next) :=
    expandWith_of_expand?_none fun d hd => (h d hd).sides
  have hf : (expandFont rs).run next = (rs, next) :=
    expandWith_of_expand?_none fun d hd => (h d hd).font
  have hg : (expandBackground rs).run next = (rs, next) :=
    expandWith_of_expand?_none fun d hd => (h d hd).background
  rw [expandAll, StateT.run_bind, hb]
  refine (StateT.run_bind ..).trans ?_
  rw [hs]
  refine (StateT.run_bind ..).trans ?_
  rw [hf]
  exact hg

theorem expandAll_expandAll (rs : RuleSet) (next next' : RuleId) :
    (expandAll (rs.expandAll.run next).1).run next' = ((rs.expandAll.run next).1, next') := by
  refine expandAll_of_isExpanded fun e he => ?_
  rw [expandAll_declarations] at he
  obtain ⟨d, -, hd⟩ := List.mem_flatMap.mp he
  exact Declaration.isExpanded_of_mem_longhands hd

theorem createAll_createAll (rs : RuleSet) (next next' : RuleId) :
    (createAll (rs.createAll.run next).1).run next' = ((rs.createAll.run next).1, next') := by
  simp only [← Creation.createEach_all]
  exact Creation.createEach_of_made?_none
    (Creation.made?_createEach Creation.shorthand_not_mem_names Creation.keepsParts_all)

-- Neither of the two finds anything to do in what it left, and no identity is given out.
theorem aggregates_idempotent (rs : RuleSet) (next next' : RuleId) :
    (expandAll (rs.expandAll.run next).1).run next' = ((rs.expandAll.run next).1, next') ∧
      (createAll (rs.createAll.run next).1).run next' = ((rs.createAll.run next).1, next') :=
  ⟨expandAll_expandAll rs next next', createAll_createAll rs next next'⟩

end RuleSet
end Stylesheet
