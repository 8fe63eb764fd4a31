import Stylesheet.Shorthand.All
/-!
What a rule set declares. Expanding replaces each rule by the declarations it stands for, so that a
rule set declares, for each name, the last of these. Main statement: `RuleSet.last?_expandAll`.
-/

namespace Stylesheet

namespace Declaration

variable {expand? : Declaration → Option (List Declaration)} {d : Declaration} {n : String}

-- What is in the place of a declaration once it is expanded.
def expandBy (expand? : Declaration → Option (List Declaration)) (d : Declaration) :
    List Declaration :=
  (expand? d).getD [d]

-- The declarations that a declaration stands for. A border comes to shorthands of its sides first.
def longhands (d : Declaration) : List Declaration :=
  (expandBy Border.expand? d).flatMap fun d =>
    (expandBy Sides.expand? d).flatMap fun d =>
      (expandBy Font.expand? d).flatMap (expandBy Background.expand?)

-- The properties that can be taken apart.
def shorthands : List String :=
  Border.shorthands ++ Sides.families ++ ["font", "background"]

theorem expandBy_of_none (h : expand? d = none) : expandBy expand? d = [d] := by
  simp [expandBy, h]

theorem expandBy_of_some {ds : List Declaration} (h : expand? d = some ds) :
    expandBy expand? d = ds := by
  simp [expandBy, h]

theorem expand?_border_of_name (h : d.name ∉ Border.shorthands) : Border.expand? d = none := by
  simp [Border.expand?, h]

theorem expand?_sides_of_name (h : d.name ∉ Sides.families) : Sides.expand? d = none := by
  simp [Sides.expand?, h]

theorem expand?_font_of_name (h : d.name ≠ "font") : Font.expand? d = none := by
  simp [Font.expand?, h]

theorem expand?_background_of_name (h : d.name ≠ "background") : Background.expand? d = none := by
  simp [Background.expand?, h]

theorem longhands_of_name (h : d.name ∉ shorthands) : d.longhands = [d] := by
  simp only [shorthands, List.mem_append, List.mem_cons, List.not_mem_nil, or_false, not_or] at h
  obtain ⟨⟨hb, hs⟩, hf, hg⟩ := h
  simp [longhands, expandBy_of_none (expand?_border_of_name hb),
    expandBy_of_none (expand?_sides_of_name hs), expandBy_of_none (expand?_font_of_name hf),
    expandBy_of_none (expand?_background_of_name hg)]

-- The declaration that counts for a name.
def last? (n : String) (ds : List Declaration) : Option Declaration :=
  ds.reverse.find? (·.name == n)

@[simp] theorem last?_nil : last? n [] = none :=
  rfl

theorem last?_append (ds es : List Declaration) :
    last? n (ds ++ es) = (last? n es).or (last? n ds) := by
  simp [last?, List.find?_append]

theorem last?_singleton : last? n [d] = if d.name = n then some d else none := by
  by_cases h : d.name = n <;> simp [last?, h]

theorem last?_cons (ds : List Declaration) :
    last? n (d :: ds) = (last? n ds).or (if d.name = n then some d else none) := by
  rw [← last?_singleton, ← last?_append, List.singleton_append]

theorem name_of_last? {ds : List Declaration} (h : last? n ds = some d) : d.name = n := by
  simpa using List.find?_some h

theorem mem_of_last? {ds : List Declaration} (h : last? n ds = some d) : d ∈ ds := by
  simpa using List.mem_of_find?_eq_some h

theorem last?_eq_none_iff {ds : List Declaration} : last? n ds = none ↔ ∀ d ∈ ds, d.name ≠ n := by
  simp [last?, List.find?_eq_none]

end Declaration

namespace Rule

theorem freshAll_declarations (ds : List Declaration) (next : RuleId) :
    ((freshAll ds).run next).1.map Rule.toDeclaration = ds := by
  induction ds generalizing next
  case nil => rfl
  case cons d ds ih => exact congrArg (d :: ·) (ih (next + 1))

end Rule

namespace RuleSet

variable {n : String} {rs ss : RuleSet}

-- Every rule gives way on its own, whatever identities the new ones get.
theorem expandWith_declarations (expand? : Declaration → Option (List Declaration))
    (rs : RuleSet) (next : RuleId) :
    declarations ((rs.expandWith expand?).run next).1 =
      rs.declarations.flatMap (Declaration.expandBy expand?) := by
  induction rs generalizing next
  case nil => rfl
  case cons r rs ih =>
    cases h : expand? r.toDeclaration
    case none =>
      have ih := ih next
      simp only [expandWith, h, declarations, Declaration.expandBy, List.map_cons,
        List.flatMap_cons]
      exact congrArg (r.toDeclaration :: ·) ih
    case some parts =>
      have hf := Rule.freshAll_declarations parts next
      have ih := ih ((Rule.freshAll parts).run next).2
      simp only [expandWith, h, declarations, Declaration.expandBy, List.map_cons,
        List.flatMap_cons]
      refine (List.map_append ..).trans ?_
      exact (congrArg (· ++ _) hf).trans (congrArg (parts ++ ·) ih)

theorem expandAll_declarations (rs : RuleSet) (next : RuleId) :
    declarations (rs.expandAll.run next).1 = rs.declarations.flatMap Declaration.longhands := by
  let s₁ := (expandBorder rs).run next
  let s₂ := (expandSides s₁.1).run s₁.2
  let s₃ := (expandFont s₂.1).run s₂.2
  have hb : declarations s₁.1 = _ := expandWith_declarations ..
  have hs : declarations s₂.1 = _ := expandWith_declarations ..
  have hf : declarations s₃.1 = _ := expandWith_declarations ..
  have hg : declarations ((expandBackground s₃.1).run s₃.2).1 = _ := expandWith_declarations ..
  refine Eq.trans hg ?_
  rw [hf, hs, hb, List.flatMap_assoc, List.flatMap_assoc, List.flatMap_assoc]
  rfl

-- The declaration that counts for a name when all shorthands are expanded.
def declared? (n : String) (rs : RuleSet) : Option Declaration :=
  Declaration.last? n (rs.declarations.flatMap Declaration.longhands)

theorem last?_declarations (n : String) (rs : RuleSet) :
    (rs.last? n).map Rule.toDeclaration = Declaration.last? n rs.declarations := by
  simp only [last?, Declaration.last?, declarations, ← List.map_reverse, List.find?_map]
  rfl

theorem last?_expandAll (n : String) (rs : RuleSet) (next : RuleId) :
    ((rs.expandAll.run next).1.last? n).map Rule.toDeclaration = rs.declared? n := by
  rw [last?_declarations, expandAll_declarations, declared?]

end RuleSet
end Stylesheet
