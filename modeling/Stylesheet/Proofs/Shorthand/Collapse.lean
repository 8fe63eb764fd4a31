import Stylesheet.Proofs.Shorthand.CreateAll
/-!
Creating shorthands where the rules are what shorthands were expanded to. The rules that came from
one declaration collapse to it again if they are all the parts there are and their value is put
together as it was. Main statement: `Creation.declarations_createEach`.
-/

namespace Stylesheet

open Declaration

namespace Longhands

variable {names : List String} {rs : RuleSet} {l : Longhands} {d : Declaration}
  {ds : List Declaration}

-- What the parts of a shorthand say, whatever rules they are in.
structure Say (l : Longhands) (ds : List Declaration) : Prop where
  value? : ∀ n, l.value? n = (last? n ds).map (·.value)
  any : ∀ p : Value → Bool, (∀ d ∈ ds, p d.value = false) → l.any p = false

-- Parts of one importance are collected.
theorem collect?_of_taken {i : Bool}
    (h : rs.declarations.filter (names.contains ·.name) = d :: ds)
    (hi : ∀ e ∈ d :: ds, e.important = i) :
    ∃ l, collect? names rs = some l ∧ l.first.toDeclaration = d ∧ l.Say (d :: ds) := by
  have hm : rs.declarations.filter (names.contains ·.name) =
      (rs.filter (names.contains ·.name)).map Rule.toDeclaration := by
    simp [RuleSet.declarations, List.filter_map]
    rfl
  have hmap := hm.symm.trans h
  rw [List.map_eq_cons_iff] at hmap
  obtain ⟨first, rest, hrs, hfirst, hrest⟩ := hmap
  have hall : rest.all (·.important == first.important) := by
    rw [List.all_eq_true]
    intro r hr
    have h₁ := hi r.toDeclaration (List.mem_cons_of_mem _ (hrest ▸ List.mem_map_of_mem hr))
    have h₂ := hi d List.mem_cons_self
    simp [h₁, ← hfirst, ← h₂]
  have hl : collect? names rs = some ⟨first, .ofRules (first :: rest)⟩ := by
    rw [collect?, hrs]
    exact if_pos hall
  refine ⟨_, hl, hfirst, fun n => ?_, fun p hp => ?_⟩
  · rw [(of_collect? hl).2.2 n, h]
  · simp only [Longhands.any, List.any_eq_false]
    intro entry he
    rcases Cascade.mem_of_mem_foldl_put he with hr | hr
    · have : entry.2.toDeclaration ∈ d :: ds := by
        rw [← hfirst, ← hrest, ← List.map_cons]
        exact List.mem_map_of_mem hr
      simpa using hp _ this
    · cases hr

end Longhands

namespace Creation

variable {c : Creation} {d : Declaration} {ds front parts back : List Declaration} {rs : RuleSet}
  {f : Declaration → List Declaration} {next : RuleId}

-- What parts are that are made to the declaration again that they came from.
structure Collapses (c : Creation) (d : Declaration) (parts : List Declaration) : Prop where
  ne_nil : parts ≠ []
  takes : ∀ e ∈ parts, c.takes e
  derive : ∀ e ∈ parts, e.important = d.important ∧ e.derive d.name d.value = d
  value? : ∀ l : Longhands, l.Say parts → c.value? l = some d.value

theorem taken_eq_nil (h : ∀ e ∈ ds, c.takes e = false) : c.taken ds = [] := by
  rw [taken, List.filter_eq_nil_iff]
  exact fun e he => by simp [h e he]

theorem taken_eq_self (h : ∀ e ∈ ds, c.takes e) : c.taken ds = ds :=
  List.filter_eq_self.mpr h

-- Without parts there is nothing to create.
theorem create_of_taken_eq_nil (h : c.taken rs.declarations = []) :
    (c.create rs).run next = (rs, next) := by
  refine create_of_made?_none ?_
  cases hm : c.made? rs
  case none => rfl
  case some made =>
    obtain ⟨l, v⟩ := made
    have hmem := (of_made? hm).2.1
    rw [h] at hmem
    cases hmem

-- Parts of one importance give way to one declaration in their place, if they have a value in one.
theorem declarations_create_of_parts {i : Bool} (hparts : ∀ e ∈ d :: ds, c.takes e)
    (hi : ∀ e ∈ d :: ds, e.important = i) (hf : ∀ e ∈ front, c.takes e = false)
    (hb : ∀ e ∈ back, c.takes e = false) (hrs : rs.declarations = front ++ (d :: ds ++ back)) :
    ∃ l : Longhands, l.Say (d :: ds) ∧ RuleSet.declarations ((c.create rs).run next).1 =
      (c.value? l).elim rs.declarations fun v => front ++ d.derive c.shorthand v :: back := by
  have htaken : c.taken rs.declarations = d :: ds := by
    have h₁ := taken_eq_nil hf
    have h₂ := taken_eq_self hparts
    have h₃ := taken_eq_nil hb
    simp only [taken] at h₁ h₂ h₃
    rw [hrs, taken, List.filter_append, List.filter_append, h₁, h₂, h₃, List.append_nil,
      List.nil_append]
  obtain ⟨l, hl, hfirst, hsay⟩ := Longhands.collect?_of_taken htaken hi
  refine ⟨l, hsay, ?_⟩
  cases hv : c.value? l
  case none =>
    rw [create_of_made?_none (by simp [made?, hl, hv])]
    rfl
  case some v =>
    have hm : c.made? rs = some (l, v) := by
      simp [made?, hl, hv]
    have htf : c.takes d := hparts d List.mem_cons_self
    have hfront : ∀ e ∈ front, (!c.takes e) = true := fun e he => by simp [hf e he]
    have hleft : c.left rs.declarations = back := by
      have h₁ : (d :: ds).filter (!c.takes ·) = [] := by
        rw [List.filter_eq_nil_iff]
        exact fun e he => by simp [hparts e he]
      have h₂ : back.filter (!c.takes ·) = back :=
        List.filter_eq_self.mpr fun e he => by simp [hb e he]
      rw [left, hrs, List.dropWhile_append_of_pos hfront, List.cons_append,
        List.dropWhile_cons_of_neg (by simp [htf]), ← List.cons_append, List.filter_append, h₁, h₂,
        List.nil_append]
    have hkeep : c.front rs.declarations = front := by
      rw [Creation.front, hrs, List.takeWhile_append_of_pos hfront, List.cons_append,
        List.takeWhile_cons_of_neg (by simp [htf]), List.append_nil]
    rw [declarations_create hm, hkeep, hleft, hfirst]
    rfl

-- The parts of one declaration give way to it.
theorem declarations_create_of_collapses (hd : d.name = c.shorthand) (h : c.Collapses d parts)
    (hf : ∀ e ∈ front, c.takes e = false) (hb : ∀ e ∈ back, c.takes e = false)
    (hrs : rs.declarations = front ++ (parts ++ back)) :
    RuleSet.declarations ((c.create rs).run next).1 = front ++ d :: back := by
  obtain ⟨first, rest, hparts⟩ := List.exists_cons_of_ne_nil h.ne_nil
  subst hparts
  obtain ⟨l, hsay, hcreate⟩ := @declarations_create_of_parts c first rest front back rs next _
    h.takes (fun e he => (h.derive e he).1) hf hb hrs
  have hderive : first.derive c.shorthand d.value = d := by
    rw [← hd]
    exact (h.derive first List.mem_cons_self).2
  rw [hcreate, h.value? l hsay, Option.elim_some, hderive]

-- The parts of the one declaration of the shorthand, if there is one, give way to it; what came from
-- the others stays.
theorem declarations_create_flatMap (hone : (ds.map (·.name)).count c.shorthand ≤ 1)
    (ho : ∀ d ∈ ds, d.name = c.shorthand → c.Collapses d (f d))
    (hr : ∀ d ∈ ds, d.name ≠ c.shorthand → ∀ e ∈ f d, c.takes e = false)
    (hrs : rs.declarations = ds.flatMap f) :
    RuleSet.declarations ((c.create rs).run next).1 =
      ds.flatMap fun d => if d.name = c.shorthand then [d] else f d := by
  have others (es : List Declaration) (hes : es ⊆ ds) (hn : ∀ d ∈ es, d.name ≠ c.shorthand) :
      (∀ e ∈ es.flatMap f, c.takes e = false) ∧
        (es.flatMap fun d => if d.name = c.shorthand then [d] else f d) = es.flatMap f := by
    constructor
    · intro e he
      obtain ⟨d, hd, hed⟩ := List.mem_flatMap.mp he
      exact hr d (hes hd) (hn d hd) e hed
    · exact List.flatMap_congr fun d hd => if_neg (hn d hd)
  by_cases hm : c.shorthand ∈ ds.map (·.name)
  case neg =>
    have hn : ∀ d ∈ ds, d.name ≠ c.shorthand := fun d hd he =>
      hm (he ▸ List.mem_map_of_mem hd)
    obtain ⟨htakes, hsame⟩ := others ds (List.Subset.refl _) hn
    rw [create_of_taken_eq_nil (taken_eq_nil (hrs ▸ htakes)), hsame, hrs]
  case pos =>
    obtain ⟨d, hd, hname⟩ := List.mem_map.mp hm
    obtain ⟨pre, post, hds⟩ := List.append_of_mem hd
    subst hds
    -- No other declaration has the name.
    have hcount : (pre.map (·.name)).count c.shorthand = 0 ∧
        (post.map (·.name)).count c.shorthand = 0 := by
      rw [List.map_append, List.map_cons, List.count_append, List.count_cons] at hone
      simp only [hname, beq_self_eq_true, if_true] at hone
      omega
    have hpre : ∀ d ∈ pre, d.name ≠ c.shorthand := fun d hd he =>
      List.count_eq_zero.mp hcount.1 (he ▸ List.mem_map_of_mem hd)
    have hpost : ∀ d ∈ post, d.name ≠ c.shorthand := fun d hd he =>
      List.count_eq_zero.mp hcount.2 (he ▸ List.mem_map_of_mem hd)
    obtain ⟨hfront, hfs⟩ := others pre (List.subset_append_left _ _) hpre
    obtain ⟨hback, hbs⟩ := others post
      (fun e he => List.mem_append_right _ (List.mem_cons_of_mem _ he)) hpost
    rw [List.flatMap_append, List.flatMap_cons] at hrs
    rw [declarations_create_of_collapses hname (ho d hd hname) hfront hback hrs,
      List.flatMap_append, List.flatMap_cons, hfs, hbs, if_pos hname, List.singleton_append]

-- What creations must be so that they do not come into each other's way.
structure AreApart (cs : List Creation) : Prop where
  nodup : (cs.map shorthand).Nodup
  shorthands : ∀ c ∈ cs, ∀ c' ∈ cs, c.shorthand ∉ c'.names
  names : ∀ c ∈ cs, ∀ c' ∈ cs, ∀ n ∈ c.names, n ∈ c'.names → c.shorthand = c'.shorthand

-- What a declaration was expanded to: parts that collapse to it, or rules that are no parts.
def IsExpansion (cs : List Creation) (d : Declaration) (parts : List Declaration) : Prop :=
  (∃ c ∈ cs, d.name = c.shorthand ∧ c.Collapses d parts) ∨
    ∀ c ∈ cs, d.name ≠ c.shorthand ∧ ∀ e ∈ parts, c.takes e = false

theorem AreApart.tail {cs : List Creation} (h : AreApart (c :: cs)) : AreApart cs where
  nodup := (List.nodup_cons.mp h.nodup).2
  shorthands c' hc c'' hc' :=
    h.shorthands c' (List.mem_cons_of_mem _ hc) c'' (List.mem_cons_of_mem _ hc')
  names c' hc c'' hc' := h.names c' (List.mem_cons_of_mem _ hc) c'' (List.mem_cons_of_mem _ hc')

-- One creation after the other collapses what came from the declarations of its shorthand.
theorem declarations_createEach {cs : List Creation} (hcs : AreApart cs)
    (hone : ∀ c ∈ cs, (ds.map (·.name)).count c.shorthand ≤ 1)
    (hf : ∀ d ∈ ds, IsExpansion cs d (f d)) (hrs : rs.declarations = ds.flatMap f) :
    RuleSet.declarations ((createEach cs rs).run next).1 =
      ds.flatMap fun d => if d.name ∈ cs.map shorthand then [d] else f d := by
  induction cs generalizing rs next f
  case nil => exact hrs
  case cons c cs ih =>
    obtain ⟨hc, hones⟩ := List.forall_mem_cons.mp hone
    obtain ⟨hfresh, -⟩ := List.nodup_cons.mp hcs.nodup
    have hmem : c ∈ c :: cs := List.mem_cons_self
    have howner : ∀ d ∈ ds, d.name = c.shorthand → c.Collapses d (f d) := by
      intro d hd hn
      rcases hf d hd with ⟨c', hc', hn', h⟩ | h
      · rcases List.mem_cons.mp hc' with rfl | hc'
        · exact h
        · exact absurd (hn.symm.trans hn' ▸ List.mem_map_of_mem hc') hfresh
      · exact absurd hn (h c hmem).1
    have hothers : ∀ d ∈ ds, d.name ≠ c.shorthand → ∀ e ∈ f d, c.takes e = false := by
      intro d hd hn e he
      rcases hf d hd with ⟨c', hc', hn', h⟩ | h
      · have htakes := h.takes e he
        simp only [takes, List.contains_eq_mem, decide_eq_true_eq] at htakes
        simp only [takes, List.contains_eq_mem, decide_eq_false_iff_not]
        exact fun hin => hn (hn'.trans (hcs.names c' hc' c hmem e.name htakes hin))
      · exact (h c hmem).2 e he
    have hstep := @declarations_create_flatMap c ds rs f next hc howner hothers hrs
    have hrest : ∀ d ∈ ds, IsExpansion cs d (if d.name = c.shorthand then [d] else f d) := by
      intro d hd
      split
      case isTrue hn =>
        refine .inr fun c' hc' => ⟨fun he => hfresh ?_, fun e he => ?_⟩
        · exact hn.symm.trans he ▸ List.mem_map_of_mem hc'
        · rw [List.mem_singleton.mp he, takes, hn]
          simpa using hcs.shorthands c hmem c' (List.mem_cons_of_mem _ hc')
      case isFalse hn =>
        rcases hf d hd with ⟨c', hc', hn', h⟩ | h
        · rcases List.mem_cons.mp hc' with rfl | hc'
          · exact absurd hn' hn
          · exact .inl ⟨c', hc', hn', h⟩
        · exact .inr fun c' hc' => h c' (List.mem_cons_of_mem _ hc')
    refine (ih hcs.tail hones hrest hstep).trans (List.flatMap_congr fun d _ => ?_)
    rw [List.map_cons]
    by_cases hn : d.name = c.shorthand
    · simp [hn]
    · simp [hn]

theorem createEach_append (cs cs' : List Creation) (rs : RuleSet) (next : RuleId) :
    (createEach (cs ++ cs') rs).run next =
      (createEach cs' ((createEach cs rs).run next).1).run ((createEach cs rs).run next).2 := by
  induction cs generalizing rs next
  case nil => rfl
  case cons c cs ih => exact ih ..

end Creation
end Stylesheet
