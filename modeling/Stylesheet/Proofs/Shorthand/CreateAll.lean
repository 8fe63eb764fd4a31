import Stylesheet.Proofs.Shorthand.Font
/-!
Creating all shorthands, one after the other. What a longhand declares stays the same if no
creation on the way changes it. Main statement: `RuleSet.last?_expandAll_createAll`.
-/

namespace Stylesheet

open Declaration

namespace Creation

-- All creations in their order.
def all : List Creation :=
  background :: Sides.families.map sides ++ [border, font]

def createEach : List Creation → RuleSet → Fresh RuleSet
  | [], rs => return rs
  | c :: cs, rs => do createEach cs (← c.create rs)

-- Whether no creation changes what a name declares, each at the rules that those before it leave.
def keepEach (n : String) : List Creation → RuleSet → RuleId → Bool
  | [], _, _ => true
  | c :: cs, rs, next =>
    let created := (c.create rs).run next
    c.keeps n rs && keepEach n cs created.1 created.2

theorem createEach_all (rs : RuleSet) : createEach all rs = rs.createAll :=
  rfl

theorem readsBack_all : ∀ c ∈ all, c.ReadsBack := by
  simp only [all, List.cons_append, List.forall_mem_cons, List.forall_mem_append,
    List.forall_mem_map]
  exact ⟨readsBack_background, fun _ => readsBack_sides, readsBack_border, readsBack_font, by simp⟩

theorem shorthand_mem_shorthands : ∀ c ∈ all, c.shorthand ∈ Declaration.shorthands := by
  decide

theorem shorthand_not_mem_names : ∀ c ∈ all, c.shorthand ∉ c.names := by
  decide

-- Rules that are no shorthands have values that were read, since creating adds no others.
def Reads (rs : RuleSet) : Prop :=
  ∀ d ∈ rs.declarations, d.name ∉ Declaration.shorthands → Value.hasShape .whole d.value

theorem reads_create {c : Creation} {rs : RuleSet} {next : RuleId}
    (hc : c.shorthand ∈ Declaration.shorthands) (h : Reads rs) :
    Reads ((c.create rs).run next).1 := by
  cases hm : c.made? rs
  case none => rwa [create_of_made?_none hm]
  case some made =>
    intro d hd hn
    rw [declarations_create hm, List.mem_append, List.mem_cons] at hd
    rcases hd with hd | rfl | hd
    · exact h d ((List.takeWhile_prefix _).subset hd) hn
    · exact absurd hc hn
    · exact h d ((List.dropWhile_suffix _).subset (List.mem_filter.mp hd).1) hn

theorem declared?_createEach {n : String} (hn : n ∉ Declaration.shorthands) {cs : List Creation}
    (hb : ∀ c ∈ cs, c.ReadsBack) (hs : ∀ c ∈ cs, c.shorthand ∈ Declaration.shorthands)
    {rs : RuleSet} {next : RuleId} (hr : Reads rs) (hk : keepEach n cs rs next) {d : Declaration}
    (hd : rs.declared? n = some d) :
    ∃ e, RuleSet.declared? n ((createEach cs rs).run next).1 = some e ∧ d.Agrees e := by
  induction cs generalizing rs next d
  case nil => exact ⟨d, hd, Agrees.refl d⟩
  case cons c cs ih =>
    simp only [keepEach, Bool.and_eq_true] at hk
    obtain ⟨hbc, hbr⟩ := List.forall_mem_cons.mp hb
    obtain ⟨hsc, hsr⟩ := List.forall_mem_cons.mp hs
    obtain ⟨e, he, ha⟩ := declared?_create hbc hn hr hk.1 hd next
    obtain ⟨f, hf, hb⟩ := ih hbr hsr (reads_create hsc hr) hk.2 he
    exact ⟨f, hf, ha.trans hb⟩

end Creation

namespace RuleSet

theorem run_createAll_expandAll (rs : RuleSet) (next : RuleId) :
    (rs.createAll >>= expandAll).run next =
      (expandAll (rs.createAll.run next).1).run (rs.createAll.run next).2 :=
  StateT.run_bind ..

-- The declaration of a longhand is the same whether or not shorthands are created first, if each
-- creation keeps it.
theorem last?_expandAll_createAll {rs : RuleSet} (hv : ∀ r ∈ rs, r.value.IsRead) {n : String}
    (hn : n ∉ Declaration.shorthands) (next next' : RuleId)
    (hk : Creation.keepEach n Creation.all rs next') {r : Rule}
    (hr : (rs.expandAll.run next).1.last? n = some r) :
    ∃ s, ((rs.createAll >>= expandAll).run next').1.last? n = some s ∧
      r.value.same s.value ∧ r.important = s.important := by
  have hreads : Creation.Reads rs := by
    intro d hd _
    obtain ⟨r, hr, he⟩ := List.mem_map.mp hd
    exact he ▸ (hv r hr).hasShape
  have hd : rs.declared? n = some r.toDeclaration := by
    rw [← last?_expandAll n rs next, hr]
    rfl
  obtain ⟨e, he, ha, hi⟩ := Creation.declared?_createEach hn Creation.readsBack_all
    Creation.shorthand_mem_shorthands hreads hk hd
  have hself : r.value.same r.value := by
    obtain ⟨d, hd, hdr⟩ := List.mem_flatMap.mp (mem_of_last? hd)
    obtain ⟨s, hs, hsd⟩ := List.mem_map.mp hd
    refine (Derives.of_mem_longhands hdr).same_self ?_
    exact Value.same_self_of_hasShape (hsd ▸ (hv s hs).hasShape)
  rw [Creation.createEach_all, ← last?_expandAll n _ (rs.createAll.run next').2,
    Option.map_eq_some_iff] at he
  obtain ⟨s, hs, rfl⟩ := he
  refine ⟨s, by rw [run_createAll_expandAll, hs], ?_, hi⟩
  rcases ha with ha | ha
  · exact ha ▸ hself
  · exact ha

def evenMargins : RuleSet :=
  [{ name := "margin-top", value := .keyword "auto", id := 0 },
   { name := "color", value := .keyword "red", id := 1 },
   { name := "margin-right", value := .keyword "auto", id := 2 },
   { name := "margin-bottom", value := .keyword "auto", id := 3 },
   { name := "margin-left", value := .keyword "auto", id := 4 }]

theorem isRead_keyword (word : String) : (Value.keyword word).IsRead :=
  ⟨[⟨.identifier word, .start⟩], .start, rfl⟩

-- Four margins become one and are the same again when it is expanded.
theorem last?_expandAll_createAll_margins :
    ∃ s, ((evenMargins.createAll >>= expandAll).run 5).1.last? "margin-left" = some s ∧
      (Value.keyword "auto").same s.value ∧ false = s.important := by
  refine @last?_expandAll_createAll evenMargins ?_ "margin-left" (by decide) 5 5 ?_
    { name := "margin-left", value := .keyword "auto", id := 4 } ?_
  · simp only [evenMargins, List.forall_mem_cons]
    exact ⟨isRead_keyword _, isRead_keyword _, isRead_keyword _, isRead_keyword _, isRead_keyword _,
      by simp⟩
  · rfl
  · rfl

-- A background between two of its parts.
def overtaken : RuleSet :=
  [{ name := "background-color", value := .keyword "red", id := 0 },
   { name := "background", value := .keyword "blue", id := 1 },
   { name := "background-image", value := .url "x", id := 2 }]

-- A background in front of a part.
def filledIn : RuleSet :=
  [{ name := "background", value := .url "x", id := 0 },
   { name := "background-color", value := .keyword "red", id := 1 }]

-- A part that says the same as the initial value, but not in the same words.
def otherwiseSpelled : RuleSet :=
  [{ name := "background-color", value := .keyword "red", id := 0 },
   { name := "background-image", value := .keyword "NONE", id := 1 }]

-- A part that is not what its name says, in front of one that is.
def misnamed : RuleSet :=
  [{ name := "background-color", value := .keyword "none", id := 0 },
   { name := "background-image", value := .url "x", id := 1 }]

-- Without the conditions on the order, on what is filled in, on the kinds of the parts and on their
-- spelling, creating changes what is declared.
theorem expandAll_createAll_changes :
    (∀ rs ∈ [overtaken, filledIn, misnamed, otherwiseSpelled], ∀ r ∈ rs, r.value.IsRead) ∧
      "background-image" ∉ Declaration.shorthands ∧
      (([overtaken, filledIn, misnamed, otherwiseSpelled].map fun rs =>
        (((rs.expandAll.run 3).1.last? "background-image").map (·.value),
          (((rs.createAll >>= expandAll).run 3).1.last? "background-image").map (·.value))) =
        [(some (.url "x"), some (.keyword "none")), (some (.url "x"), some (.keyword "none")),
         (some (.url "x"), some (.keyword "none")),
         (some (.keyword "NONE"), some (.keyword "none"))]) ∧
      (Value.url "x").same (.keyword "none") = false ∧
      (Value.keyword "NONE").same (.keyword "none") = false := by
  have hurl : (Value.url "x").IsRead := ⟨[⟨.url "x", .start⟩], .start, rfl⟩
  refine ⟨?_, by decide, rfl, rfl, by decide⟩
  simp only [overtaken, filledIn, misnamed, otherwiseSpelled, List.forall_mem_cons]
  exact ⟨⟨isRead_keyword _, isRead_keyword _, hurl, by simp⟩, ⟨hurl, isRead_keyword _, by simp⟩,
    ⟨isRead_keyword _, hurl, by simp⟩, ⟨isRead_keyword _, isRead_keyword _, by simp⟩, by simp⟩

end RuleSet
end Stylesheet
