import Stylesheet.Proofs.RuleSet.Identities
import Stylesheet.Proofs.Shorthand.Declared
/-!
Expanding rule by rule. A rule is kept as it is, or new rules of its importance and position are in
its place, whatever other rules there are. This holds of one transform, of one after the other
(`Expanded.trans`), and of the walks that look for their rules by identity. Main statement:
`RuleSet.Family.expandNamed_local`.
-/

namespace Stylesheet

namespace Declaration

variable {d e f : Declaration} {expand? expand?' : Declaration → Option (List Declaration)}

-- What is in the place of a declaration once it is expanded in one way and then in another. There
-- is nothing if both leave the declaration as it is.
def expandThen (expand? expand?' : Declaration → Option (List Declaration)) (d : Declaration) :
    Option (List Declaration) :=
  match expand? d with
  | some ds => some (ds.flatMap (expandBy expand?'))
  | none => expand?' d

theorem expandThen_of_none (h : expand? d = none) : expandThen expand? expand?' d = expand?' d := by
  simp [expandThen, h]

theorem expandThen_of_some {ds : List Declaration} (h : expand? d = some ds) :
    expandThen expand? expand?' d = some (ds.flatMap (expandBy expand?')) := by
  simp [expandThen, h]

-- One declaration is at the place of another, and as important.
structure Inherits (d e : Declaration) : Prop where
  important : e.important = d.important
  position : e.position = d.position

namespace Inherits

theorem refl (d : Declaration) : d.Inherits d :=
  ⟨rfl, rfl⟩

theorem trans (h₁ : d.Inherits e) (h₂ : e.Inherits f) : d.Inherits f :=
  ⟨h₂.important.trans h₁.important, h₂.position.trans h₁.position⟩

theorem of_mem_zipWith {names : List String} {values : List Value}
    (h : e ∈ List.zipWith d.derive names values) : d.Inherits e := by
  rw [← List.map_uncurry_zip_eq_zipWith, List.mem_map] at h
  obtain ⟨⟨name, v⟩, -, rfl⟩ := h
  exact ⟨rfl, rfl⟩

end Inherits

-- Whether all parts of a declaration inherit from it.
def IsInherited (expand? : Declaration → Option (List Declaration)) : Prop :=
  ∀ d ds, expand? d = some ds → ∀ e ∈ ds, d.Inherits e

theorem isInherited_border : IsInherited Border.expand? := by
  intro d ds h e he
  simp only [Border.expand?, Option.ite_none_left_eq_some, Option.some.injEq] at h
  rw [← h.2.2, List.mem_filterMap] at he
  obtain ⟨aspect, -, he⟩ := he
  obtain ⟨v, -, rfl⟩ := Option.map_eq_some_iff.mp he
  exact ⟨rfl, rfl⟩

theorem isInherited_sides : IsInherited Sides.expand? := by
  intro d ds h e he
  simp only [Sides.expand?, Option.ite_none_left_eq_some, Option.map_eq_some_iff] at h
  obtain ⟨-, sides, -, rfl⟩ := h
  exact .of_mem_zipWith he

theorem isInherited_font : IsInherited Font.expand? := by
  intro d ds h e he
  simp only [Font.expand?, Option.ite_none_left_eq_some, Option.map_eq_some_iff] at h
  obtain ⟨-, values, -, rfl⟩ := h
  exact .of_mem_zipWith he

theorem isInherited_background : IsInherited Background.expand? := by
  intro d ds h e he
  simp only [Background.expand?, Option.ite_none_left_eq_some, Option.some.injEq] at h
  obtain ⟨-, -, rfl⟩ := h
  exact .of_mem_zipWith he

end Declaration

namespace RuleSet

open Declaration (expandBy expandThen IsInherited)

section

variable {expand? expand?' : Declaration → Option (List Declaration)} {n n' : Nat} {r : Rule}
  {rs rs' rs'' ss : RuleSet}

/-! ### One transform -/

-- Each rule stays, or gives way to new rules, which have identities from the next one on. What they
-- declare depends on the rule alone.
inductive Expanded (next : Nat) (expand? : Declaration → Option (List Declaration)) :
    RuleSet → RuleSet → Prop
  | nil : Expanded next expand? [] []
  | keep {r : Rule} {rs rs' : RuleSet} (h : expand? r.toDeclaration = none)
    (hrest : Expanded next expand? rs rs') : Expanded next expand? (r :: rs) (r :: rs')
  | rewrite {r : Rule} {new rs rs' : RuleSet} (h : expand? r.toDeclaration = some new.declarations)
    (hnew : ∀ s ∈ new, next ≤ s.id ∧ r.toDeclaration.Inherits s.toDeclaration)
    (hrest : Expanded next expand? rs rs') : Expanded next expand? (r :: rs) (new ++ rs')

theorem Expanded.of_le (h : Expanded n' expand? rs rs') (hn : n ≤ n') :
    Expanded n expand? rs rs' := by
  induction h
  case nil => exact .nil
  case keep hr _ ih => exact .keep hr ih
  case rewrite hr hnew _ ih =>
    exact .rewrite hr (fun s hs => (hnew s hs).imp_left (Nat.le_trans hn)) ih

theorem declarations_append (rs ss : RuleSet) :
    declarations (rs ++ ss) = declarations rs ++ declarations ss :=
  List.map_append

theorem le_id_of_mem_freshAll {ds : List Declaration} {s : Rule}
    (h : s ∈ ((Rule.freshAll ds).run n).1) : n ≤ s.id := by
  obtain hnew | ⟨r, hr, -⟩ := (@Renews.freshAll (fun _ => []) ds n).follows s h
  · exact hnew.1
  · exact absurd hr List.not_mem_nil

theorem expanded_expandWith (h : IsInherited expand?) (rs : RuleSet) (n : Nat) :
    Expanded n expand? rs ((rs.expandWith expand?).run n).1 := by
  induction rs generalizing n
  case nil => exact .nil
  case cons r rs ih =>
    simp only [expandWith]
    cases hr : expand? r.toDeclaration
    case none => exact .keep hr (ih n)
    case some ds =>
      have hds : declarations ((Rule.freshAll ds).run n).1 = ds := Rule.freshAll_declarations ds n
      have hn := (@Renews.freshAll (fun _ => []) ds n).le
      refine .rewrite (hr.trans (congrArg some hds.symm)) (fun s hs => ?_) ((ih _).of_le hn)
      exact ⟨le_id_of_mem_freshAll hs, h _ _ hr _ (hds ▸ List.mem_map_of_mem hs)⟩

namespace Expanded

theorem declarations (h : Expanded n expand? rs rs') :
    rs'.declarations = rs.declarations.flatMap (expandBy expand?) := by
  induction h
  case nil => rfl
  case keep hr _ ih =>
    simp only [RuleSet.declarations] at ih
    simp [RuleSet.declarations, Declaration.expandBy_of_none hr, ih]
  case rewrite hr _ _ ih =>
    simp only [RuleSet.declarations] at ih hr
    simp [RuleSet.declarations, Declaration.expandBy_of_some hr, ih]

theorem exists_append (h : Expanded n expand? (rs ++ ss) rs') : ∃ rs₁ rs₂, rs' = rs₁ ++ rs₂ ∧
    Expanded n expand? rs rs₁ ∧ Expanded n expand? ss rs₂ := by
  induction rs generalizing rs'
  case nil => exact ⟨[], rs', rfl, .nil, h⟩
  case cons r rs ih =>
    cases h
    case keep hr hrest =>
      obtain ⟨rs₁, rs₂, rfl, h₁, h₂⟩ := ih hrest
      exact ⟨r :: rs₁, rs₂, rfl, .keep hr h₁, h₂⟩
    case rewrite new rest hr hnew hrest =>
      obtain ⟨rs₁, rs₂, rfl, h₁, h₂⟩ := ih hrest
      exact ⟨new ++ rs₁, rs₂, (List.append_assoc ..).symm, .rewrite hr hnew h₁, h₂⟩

-- What new rules are expanded to is new, too.
theorem inherits {d : Declaration} (h : Expanded n' expand? rs rs') (hn : n ≤ n')
    (hrs : ∀ s ∈ rs, n ≤ s.id ∧ d.Inherits s.toDeclaration) :
    ∀ s ∈ rs', n ≤ s.id ∧ d.Inherits s.toDeclaration := by
  induction h
  case nil => exact List.forall_mem_nil _
  case keep ih =>
    obtain ⟨hr, hrest⟩ := List.forall_mem_cons.mp hrs
    exact List.forall_mem_cons.mpr ⟨hr, ih hrest⟩
  case rewrite hnew _ ih =>
    obtain ⟨hr, hrest⟩ := List.forall_mem_cons.mp hrs
    refine List.forall_mem_append.mpr ⟨fun s hs => ?_, ih hrest⟩
    exact ⟨Nat.le_trans hn (hnew s hs).1, hr.2.trans (hnew s hs).2⟩

/-! ### One transform after the other -/

theorem trans (h₁ : Expanded n expand? rs rs') (h₂ : Expanded n' expand?' rs' rs'') (hn : n ≤ n') :
    Expanded n (expandThen expand? expand?') rs rs'' := by
  induction h₁ generalizing rs''
  case nil =>
    cases h₂
    exact .nil
  case keep hr _ ih =>
    cases h₂
    case keep hr' hrest => exact .keep ((Declaration.expandThen_of_none hr).trans hr') (ih hrest)
    case rewrite hr' hnew hrest =>
      exact .rewrite ((Declaration.expandThen_of_none hr).trans hr')
        (fun s hs => (hnew s hs).imp_left (Nat.le_trans hn)) (ih hrest)
  case rewrite hr hnew _ ih =>
    obtain ⟨new, rest, rfl, hparts, hrest⟩ := exists_append h₂
    refine .rewrite ?_ (hparts.inherits hn hnew) (ih hrest)
    rw [Declaration.expandThen_of_some hr, hparts.declarations]

end Expanded

-- Work on a rule set that expands it, and gives out identities from the next one on.
structure Expands (expand? : Declaration → Option (List Declaration))
    (work : RuleSet → Fresh RuleSet) : Prop where
  expanded : ∀ rs n, Expanded n expand? rs ((work rs).run n).1
  le : ∀ rs n, n ≤ ((work rs).run n).2

theorem expands_expandWith (h : IsInherited expand?) : Expands expand? (expandWith expand?) where
  expanded := expanded_expandWith h
  le rs n := (isRenewal_expandWith expand? rs n).le

theorem Expands.bind {work work' : RuleSet → Fresh RuleSet} (h : Expands expand? work)
    (h' : Expands expand?' work') :
    Expands (expandThen expand? expand?') fun rs => work rs >>= work' where
  expanded rs n := (h.expanded rs n).trans (h'.expanded _ _) (h.le rs n)
  le rs n := Nat.le_trans (h.le rs n) (h'.le _ _)

/-! ### The walks of the shorthands -/

-- Looks for the rules of these names by their identities, and takes each apart where it is found.
def expandNamed (names : List String) (expand? : Declaration → Option (List Declaration))
    (rs : RuleSet) : Fresh RuleSet :=
  expandEach expand? (ids (rs.filter (names.contains ·.name))) rs

-- Walks that come to the same, as long as identities are distinct.
def Walks (walk work : RuleSet → Fresh RuleSet) : Prop :=
  ∀ rs n, Distinct n rs → (walk rs).run n = (work rs).run n

theorem walks_expandNamed {names : List String}
    (h : ∀ d : Declaration, names.contains d.name = false → expand? d = none) :
    Walks (expandNamed names expand?) (expandWith expand?) :=
  fun _ _ hd => expandEach_eq h hd

theorem Walks.bind {walk walk' work work' : RuleSet → Fresh RuleSet} (h : Walks walk work)
    (h' : Walks walk' work') (hr : IsRenewal work) :
    Walks (fun rs => walk rs >>= walk') fun rs => work rs >>= work' := by
  intro rs n hd
  have hstep := h' _ _ ((hr rs n).distinct hd)
  rw [← h rs n hd] at hstep
  refine hstep.trans ?_
  rw [h rs n hd]
  rfl

end

namespace Family

-- What is in the place of a declaration once it is expanded; nothing, if it stays.
def expand? : Family → Declaration → Option (List Declaration)
  | all => expandThen Border.expand?
      (expandThen Sides.expand? (expandThen Font.expand? Background.expand?))
  | border => Border.expand?
  | sides => Sides.expand?
  | font => Font.expand?
  | background => Background.expand?

theorem expands (family : Family) : Expands family.expand? family.expand := by
  have hborder := expands_expandWith Declaration.isInherited_border
  have hsides := expands_expandWith Declaration.isInherited_sides
  have hfont := expands_expandWith Declaration.isInherited_font
  have hbackground := expands_expandWith Declaration.isInherited_background
  cases family
  case all => exact hborder.bind (hsides.bind (hfont.bind hbackground))
  case border => exact hborder
  case sides => exact hsides
  case font => exact hfont
  case background => exact hbackground

def expandNamed : Family → RuleSet → Fresh RuleSet
  | all => fun rs => do
    let rs ← RuleSet.expandNamed Border.shorthands Border.expand? rs
    let rs ← RuleSet.expandNamed Sides.families Sides.expand? rs
    let rs ← RuleSet.expandNamed ["font"] Font.expand? rs
    RuleSet.expandNamed ["background"] Background.expand? rs
  | border => RuleSet.expandNamed Border.shorthands Border.expand?
  | sides => RuleSet.expandNamed Sides.families Sides.expand?
  | font => RuleSet.expandNamed ["font"] Font.expand?
  | background => RuleSet.expandNamed ["background"] Background.expand?

theorem walks (family : Family) : Walks family.expandNamed family.expand := by
  have hborder := @walks_expandNamed _ Border.shorthands fun d h =>
    Declaration.expand?_border_of_name (by simpa using h)
  have hsides := @walks_expandNamed _ Sides.families fun d h =>
    Declaration.expand?_sides_of_name (by simpa using h)
  have hfont := @walks_expandNamed _ ["font"] fun d h =>
    Declaration.expand?_font_of_name (by simpa using h)
  have hbackground := @walks_expandNamed _ ["background"] fun d h =>
    Declaration.expand?_background_of_name (by simpa using h)
  cases family
  case all =>
    exact hborder.bind (hsides.bind (hfont.bind hbackground (isRenewal_expandWith _))
      (isRenewal_expandWith _)) (isRenewal_expandWith _)
  case border => exact hborder
  case sides => exact hsides
  case font => exact hfont
  case background => exact hbackground

-- Every rule is expanded at its own place, whatever stands around it, though the rules are looked
-- for by identity while others are put in between.
theorem expandNamed_local (family : Family) {n : Nat} {rs ss : RuleSet}
    (h : Distinct n (rs ++ ss)) :
    (family.expandNamed (rs ++ ss)).run n = (family.expand (rs ++ ss)).run n ∧
    Expanded n family.expand? (rs ++ ss) ((family.expandNamed (rs ++ ss)).run n).1 ∧
    declarations ((family.expandNamed (rs ++ ss)).run n).1 =
      declarations ((family.expandNamed rs).run n).1 ++
        declarations ((family.expandNamed ss).run n).1 := by
  have hrs : Distinct n rs :=
    ((@Renews.refl (fun _ => []) n (rs ++ ss)).sublist (List.sublist_append_left ..)).distinct h
  have hss : Distinct n ss :=
    ((@Renews.refl (fun _ => []) n (rs ++ ss)).sublist (List.sublist_append_right ..)).distinct h
  rw [family.walks _ n h, family.walks _ n hrs, family.walks _ n hss]
  refine ⟨rfl, family.expands.expanded _ n, ?_⟩
  rw [(family.expands.expanded _ n).declarations, (family.expands.expanded rs n).declarations,
    (family.expands.expanded ss n).declarations, declarations_append, List.flatMap_append]

-- Two borders, the later one given out first, with a rule that no transform looks at.
theorem expandNamed_local_borders :
    Distinct 3 ([⟨{ name := "border", value := .keyword "solid" }, 2⟩] ++
      [⟨{ name := "border", value := .keyword "red", important := true }, 0⟩,
        ⟨{ name := "opacity", value := .keyword "inherit" }, 1⟩]) ∧
    declarations ((all.expandNamed ([⟨{ name := "border", value := .keyword "solid" }, 2⟩] ++
      [⟨{ name := "border", value := .keyword "red", important := true }, 0⟩,
        ⟨{ name := "opacity", value := .keyword "inherit" }, 1⟩])).run 3).1 =
      declarations ((all.expandNamed [⟨{ name := "border", value := .keyword "solid" }, 2⟩]).run 3).1 ++
        declarations ((all.expandNamed
          [⟨{ name := "border", value := .keyword "red", important := true }, 0⟩,
            ⟨{ name := "opacity", value := .keyword "inherit" }, 1⟩]).run 3).1 := by
  have h : Distinct 3 ([⟨{ name := "border", value := .keyword "solid" }, 2⟩] ++
      [⟨{ name := "border", value := .keyword "red", important := true }, 0⟩,
        ⟨{ name := "opacity", value := .keyword "inherit" }, 1⟩]) :=
    ⟨by decide, by simp⟩
  exact ⟨h, (expandNamed_local all h).2.2⟩

end Family
end RuleSet
end Stylesheet
