import Stylesheet.Proofs.RuleSet.Expansion
import Stylesheet.Proofs.RuleSet.Positions
import Stylesheet.Proofs.Shorthand.CreateAll
/-!
What creating a shorthand does to a rule set: nothing, or all rules of its parts are gone and the
new rule is where the first of them was. The rules that give way are looked for by identity, and the
index of the new one is found before they are taken out. Main statement:
`Creation.createNamed_merges`.
-/

namespace Stylesheet

theorem Longhands.exists_of_collect? {names : List String} {rs : RuleSet} {l : Longhands}
    (h : collect? names rs = some l) : ∃ front back, rs = front ++ l.first :: back ∧
      (∀ r ∈ front, r.name ∉ names) ∧ l.first.name ∈ names ∧
      ∀ r ∈ rs, r.name ∈ names → r.important = l.first.important := by
  unfold collect? at h
  split at h
  case h_1 => cases h
  case h_2 first rest hfilter =>
    split at h
    case isFalse => cases h
    case isTrue hall =>
      cases h
      obtain ⟨front, back, rfl, hfront, hfirst, hback⟩ := List.filter_eq_cons_iff.mp hfilter
      refine ⟨front, back, rfl, by simpa using hfront, by simpa using hfirst, fun r hr hn => ?_⟩
      have hmem : r ∈ first :: rest := hfilter ▸ List.mem_filter.mpr ⟨hr, by simpa using hn⟩
      obtain rfl | hrest := List.mem_cons.mp hmem
      · rfl
      · simpa using List.all_eq_true.mp hall r hrest

namespace Creation

variable {c : Creation} {rs rs' : RuleSet} {n : RuleId} {l : Longhands} {v : Value} {new : Rule}

-- One rule is in the place of all rules that make a shorthand, and the others are as they were.
inductive Merged (c : Creation) (new : Rule) : RuleSet → RuleSet → Prop
  | intro {front back : RuleSet} {first : Rule}
    (hfront : ∀ r ∈ front, r.name ∉ c.names) (hfirst : first.name ∈ c.names)
    (himportant : ∀ r ∈ first :: back, r.name ∈ c.names → r.important = new.important)
    (hname : new.name = c.shorthand) (hposition : new.position = first.position) :
    Merged c new (front ++ first :: back)
      (front ++ new :: back.filter fun r => !c.names.contains r.name)

theorem Merged.name_not_mem (h : c.Merged new rs rs') (hs : c.shorthand ∉ c.names) :
    ∀ r ∈ rs', r.name ∉ c.names := by
  obtain ⟨hfront, -, -, hname, -⟩ := h
  intro r hr
  obtain hr | hr := List.mem_append.mp hr
  case inl => exact hfront r hr
  case inr =>
    obtain rfl | hr := List.mem_cons.mp hr
    · rwa [hname]
    · simpa using (List.mem_filter.mp hr).2

-- Looks for the rules of the parts by their identities, which are noted down while the value is
-- made, and puts the new rule in their place.
def createNamed (c : Creation) (rs : RuleSet) : Fresh RuleSet :=
  match c.made? rs with
  | none => return rs
  | some (l, v) => do
    let targets := RuleSet.ids (rs.filter fun r => c.names.contains r.name)
    let new ← Rule.fresh (l.first.derive c.shorthand v)
    return (rs.exchange? targets new).getD rs

theorem exists_collect?_of_made? (h : c.made? rs = some (l, v)) :
    Longhands.collect? c.names rs = some l ∧ c.value? l = some v := by
  obtain ⟨l', hl, hv⟩ := Option.bind_eq_some_iff.mp h
  obtain ⟨v', hv', heq⟩ := Option.map_eq_some_iff.mp hv
  obtain ⟨rfl, rfl⟩ := Prod.mk.inj heq
  exact ⟨hl, hv'⟩

theorem run_create_of_made? (h : c.made? rs = some (l, v)) (n : RuleId) :
    (c.create rs).run n =
      (rs.replaceWhere (c.names.contains ·.name) ⟨l.first.derive c.shorthand v, n⟩, n + 1) := by
  obtain ⟨hl, hv⟩ := exists_collect?_of_made? h
  simp only [create, RuleSet.createWith, hl, hv]
  rfl

theorem run_createNamed (h : RuleSet.Distinct n rs) :
    (c.createNamed rs).run n = (c.create rs).run n := by
  cases hm : c.made? rs
  case none =>
    rw [create_of_made?_none hm, createNamed, hm]
    rfl
  case some made =>
    obtain ⟨l, v⟩ := made
    obtain ⟨front, back, hrs, -, hfirst, -⟩ :=
      Longhands.exists_of_collect? (exists_collect?_of_made? hm).1
    have hne : rs.filter (fun r => c.names.contains r.name) ≠ [] :=
      List.ne_nil_of_mem (a := l.first) (by simp [hrs, hfirst])
    have hexchange := RuleSet.replace?_eq h.nodup hne ⟨l.first.derive c.shorthand v, n⟩
    rw [← RuleSet.exchange?_eq] at hexchange
    rw [run_create_of_made? hm, createNamed, hm]
    change (Option.getD (RuleSet.exchange? _ _ rs) rs, n + 1) = _
    rw [hexchange]
    rfl

theorem merged_of_made? (h : c.made? rs = some (l, v)) (n : RuleId) :
    c.Merged ⟨l.first.derive c.shorthand v, n⟩ rs ((c.create rs).run n).1 := by
  obtain ⟨front, back, hrs, hfront, hfirst, himportant⟩ :=
    Longhands.exists_of_collect? (exists_collect?_of_made? h).1
  have hreplace := @RuleSet.replaceWhere_append (fun r => c.names.contains r.name) front back
    l.first ⟨l.first.derive c.shorthand v, n⟩ (by simpa using hfront) (by simpa using hfirst)
  rw [run_create_of_made? h, hrs, hreplace]
  refine .intro hfront hfirst (fun r hr hn => himportant r ?_ hn) rfl rfl
  exact hrs ▸ List.mem_append_right _ hr

/-- Creating a shorthand is all or nothing. Either the rules are left as they are, or all of those
that make the shorthand, which are equally important, give way to the new rule, which is where the
first of them was. -/
theorem createNamed_merges (hc : c ∈ all) (h : RuleSet.Distinct n rs) :
    (c.createNamed rs).run n = (c.create rs).run n ∧
    (c.made? rs = none ∧ (c.createNamed rs).run n = (rs, n) ∨
      ∃ l v rs', c.made? rs = some (l, v) ∧ (c.createNamed rs).run n = (rs', n + 1) ∧
        c.Merged ⟨l.first.derive c.shorthand v, n⟩ rs rs' ∧ ∀ r ∈ rs', r.name ∉ c.names) := by
  refine ⟨run_createNamed h, ?_⟩
  rw [run_createNamed h]
  cases hm : c.made? rs
  case none => exact .inl ⟨rfl, create_of_made?_none hm⟩
  case some made =>
    obtain ⟨l, v⟩ := made
    have hmerged := merged_of_made? hm n
    refine .inr ⟨l, v, _, rfl, run_create_of_made? hm n, ?_⟩
    rw [run_create_of_made? hm] at hmerged
    exact ⟨hmerged, hmerged.name_not_mem (shorthand_not_mem_names c hc)⟩

-- Margins that are given more than once, in no order, with other rules in between.
def scatteredMargins : RuleSet :=
  [{ name := "color", value := .keyword "red", id := 4 },
   { name := "margin-left", value := .keyword "auto", id := 6 },
   { name := "margin-top", value := .keyword "inherit", id := 0 },
   { name := "opacity", value := .keyword "inherit", important := true, id := 2 },
   { name := "margin-bottom", value := .keyword "auto", id := 5 },
   { name := "margin-top", value := .keyword "auto", id := 1 },
   { name := "margin-right", value := .keyword "auto", id := 3 }]

theorem createNamed_merges_scattered : sides "margin" ∈ all ∧ RuleSet.Distinct 7 scatteredMargins ∧
    ∃ new rs', ((sides "margin").createNamed scatteredMargins).run 7 = (rs', 8) ∧
      (sides "margin").Merged new scatteredMargins rs' := by
  have hc : sides "margin" ∈ all := by simp [all, Sides.families]
  have hd : RuleSet.Distinct 7 scatteredMargins := ⟨by decide, by simp [scatteredMargins]⟩
  refine ⟨hc, hd, ?_⟩
  have hmade : ((sides "margin").made? scatteredMargins).isSome := rfl
  obtain ⟨-, ⟨hm, -⟩ | ⟨l, v, rs', -, hrun, hmerged, -⟩⟩ := createNamed_merges hc hd
  · rw [hm] at hmade
    cases hmade
  · exact ⟨_, rs', hrun, hmerged⟩

-- Creations one after the other, each of which looks for its rules by identity.
def createEachNamed : List Creation → RuleSet → Fresh RuleSet
  | [], rs => return rs
  | c :: cs, rs => do createEachNamed cs (← c.createNamed rs)

theorem walks_createEachNamed (cs : List Creation) :
    RuleSet.Walks (createEachNamed cs) (createEach cs) := by
  induction cs
  case nil => exact fun _ _ _ => rfl
  case cons c cs ih =>
    have hc : RuleSet.Walks c.createNamed c.create := fun _ _ h => run_createNamed h
    exact hc.bind ih (RuleSet.isRenewal_createWith _ _ _)

end Creation

namespace RuleSet.Family

-- What a transform creates, in turn.
def creations : Family → List Creation
  | all => Creation.all
  | border => [Creation.border]
  | sides => Sides.families.map Creation.sides
  | font => [Creation.font]
  | background => [Creation.background]

theorem create_eq (family : Family) (rs : RuleSet) (next : RuleId) :
    (family.create rs).run next = (Creation.createEach family.creations rs).run next := by
  cases family <;> rfl

-- The transforms come to the same if they look for their rules by identity.
theorem walks_creations (family : Family) :
    Walks (Creation.createEachNamed family.creations) family.create := by
  intro rs n h
  rw [create_eq, Creation.walks_createEachNamed family.creations rs n h]

end RuleSet.Family
end Stylesheet
