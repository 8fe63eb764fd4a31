import Mathlib.Data.List.Forall2
import Stylesheet.Proofs.RuleSet.Cascade
import Stylesheet.Proofs.Shorthand.Parts
import Stylesheet.Shorthand.All
/-!
Creating one shorthand. The rules of its parts give way to one rule in the place of the first of
them. What a name declares can then change in three ways: a rule that stood between the parts now
stands behind all of them, the new rule declares parts that no rule declared, or it does not read
back as the parts it was made of. Main statement: if none of these happens, nothing that the rule
set declares changes (`Creation.declared?_create`).
-/

namespace Stylesheet

-- Equality of values, where a `nan` that is the very same counts as equal too.
def Value.Agrees (v w : Value) : Prop :=
  v = w ∨ v.same w

theorem Value.Agrees.trans {u v w : Value} (h₁ : u.Agrees v) (h₂ : v.Agrees w) : u.Agrees w := by
  rcases h₁ with rfl | h₁
  · exact h₂
  · rcases h₂ with rfl | h₂
    · exact .inr h₁
    · exact .inr (same_trans h₁ h₂)

namespace Declaration

variable {n : String} {d e f : Declaration} {ds es : List Declaration}

def Agrees (d e : Declaration) : Prop :=
  d.value.Agrees e.value ∧ d.important = e.important

theorem Agrees.refl (d : Declaration) : d.Agrees d :=
  ⟨.inl rfl, rfl⟩

theorem Agrees.trans (h₁ : d.Agrees e) (h₂ : e.Agrees f) : d.Agrees f :=
  ⟨h₁.1.trans h₂.1, h₁.2.trans h₂.2⟩

-- What declarations stand for when all shorthands among them are expanded.
def expanded (ds : List Declaration) : List Declaration :=
  ds.flatMap longhands

def declares (n : String) (d : Declaration) : Bool :=
  d.longhands.any (·.name == n)

theorem last?_expanded_append :
    last? n (expanded (ds ++ es)) = (last? n (expanded es)).or (last? n (expanded ds)) := by
  rw [expanded, List.flatMap_append, last?_append, expanded, expanded]

theorem last?_expanded_cons :
    last? n (expanded (d :: ds)) = (last? n (expanded ds)).or (last? n d.longhands) := by
  rw [expanded, List.flatMap_cons, last?_append, expanded]

-- What is no shorthand stays as it is.
theorem expanded_of_names (h : ∀ d ∈ ds, d.name ∉ shorthands) : expanded ds = ds := by
  induction ds
  case nil => rfl
  case cons d ds ih =>
    obtain ⟨hd, hr⟩ := List.forall_mem_cons.mp h
    exact congrArg₂ (· ++ ·) (longhands_of_name hd) (ih hr)

theorem flatMap_expandBy {expand? : Declaration → Option (List Declaration)}
    (h : ∀ d ∈ ds, expand? d = none) : ds.flatMap (expandBy expand?) = ds := by
  induction ds
  case nil => rfl
  case cons d ds ih =>
    obtain ⟨hd, hr⟩ := List.forall_mem_cons.mp h
    exact congrArg₂ (· ++ ·) (expandBy_of_none hd) (ih hr)

theorem name_of_mem_zipWith {names : List String} {values : List Value}
    (h : e ∈ List.zipWith d.derive names values) : e.name ∈ names := by
  induction names generalizing values
  case nil => simp at h
  case cons name names ih =>
    cases values
    case nil => simp at h
    case cons v values =>
      rw [List.zipWith_cons_cons, List.mem_cons] at h
      rcases h with rfl | h
      · exact List.mem_cons_self
      · exact List.mem_cons_of_mem _ (ih h)

theorem last?_longhands_eq_none_iff : last? n d.longhands = none ↔ d.declares n = false := by
  simp [last?_eq_none_iff, declares]

theorem last?_expanded_eq_none_iff :
    last? n (expanded ds) = none ↔ ds.any (declares n) = false := by
  simp only [last?_eq_none_iff, expanded, List.mem_flatMap, declares, List.any_eq_false, beq_iff_eq,
    Bool.not_eq_true]
  constructor
  case mp => exact fun h d hd e he => h e ⟨d, hd, he⟩
  case mpr =>
    rintro h e ⟨d, hd, he⟩
    exact h d hd e he

theorem last?_zipWith {names : List String} {values : List Value} (hn : names.Nodup) :
    last? n (List.zipWith d.derive names values) =
      ((names.zip values).lookup n).map (d.derive n) := by
  induction names generalizing values
  case nil => rfl
  case cons name names ih =>
    obtain ⟨hm, hr⟩ := List.nodup_cons.mp hn
    cases values
    case nil => rfl
    case cons v values =>
      rw [List.zipWith_cons_cons, last?_cons, List.zip_cons_cons, List.lookup_cons]
      by_cases h : n = name
      · have : last? n (List.zipWith d.derive names values) = none :=
          last?_eq_none_iff.mpr fun e he hne => hm (h ▸ hne ▸ name_of_mem_zipWith he)
        rw [this, h]
        simp [derive]
      · have : (n == name) = false := by simpa using h
        simp [this, ih hr, derive, Ne.symm h]

theorem last?_map_derive {names : List String} {v : Value} (h : n ∈ names) :
    last? n (names.map (d.derive · v)) = some (d.derive n v) := by
  induction names
  case nil => simp at h
  case cons name names ih =>
    rw [List.map_cons, last?_cons]
    by_cases hn : n ∈ names
    · rw [ih hn, Option.some_or]
    · have : last? n (names.map (d.derive · v)) = none := by
        rw [last?_eq_none_iff]
        simp only [List.forall_mem_map]
        exact fun m hm he => hn (he ▸ hm)
      rw [this, ← (List.mem_cons.mp h).resolve_right hn]
      simp [derive]

theorem last?_filterMap_derive {names : List String} {g : String → Option Value}
    (h : n ∈ names) :
    last? n (names.filterMap fun m => (g m).map (d.derive m)) = (g n).map (d.derive n) := by
  induction names
  case nil => simp at h
  case cons name names ih =>
    have hcons : last? n ((name :: names).filterMap fun m => (g m).map (d.derive m)) =
        (last? n (names.filterMap fun m => (g m).map (d.derive m))).or
          (if name = n then (g n).map (d.derive n) else none) := by
      cases hg : g name
      case none => by_cases hn : name = n <;> simp_all
      case some v =>
        simp only [List.filterMap_cons, hg, Option.map_some, last?_cons]
        by_cases hn : name = n
        · subst hn
          simp [hg, derive]
        · simp [hn, derive]
    rw [hcons]
    by_cases hn : n ∈ names
    · rw [ih hn]
      split <;> simp
    · have : last? n (names.filterMap fun m => (g m).map (d.derive m)) = none := by
        rw [last?_eq_none_iff]
        simp only [List.mem_filterMap, Option.map_eq_some_iff]
        rintro e ⟨m, hm, v, _, rfl⟩ he
        exact hn (he ▸ hm)
      rw [this, if_pos ((List.mem_cons.mp h).resolve_right hn).symm, Option.none_or]

theorem lookup_zip_of_forall₂ {R : String → Value → Prop} {names : List String}
    {values : List Value} (h : List.Forall₂ R names values) (hn : n ∈ names) :
    ∃ v, (names.zip values).lookup n = some v ∧ R n v := by
  induction h
  case nil => simp at hn
  case cons name v names values hv _ ih =>
    rw [List.zip_cons_cons, List.lookup_cons]
    by_cases he : n = name
    · exact ⟨v, by simp [he], he ▸ hv⟩
    · have hb : (n == name) = false := by simpa using he
      rw [hb]
      exact ih ((List.mem_cons.mp hn).resolve_left he)

-- The declaration that counts for a name comes from the last declaration of the only property
-- that declares the name.
theorem last?_expanded_of_owner {m : String} {w : Declaration}
    (ho : ∀ d ∈ ds, d.declares n → d.name = m) (hw : last? m ds = some w) (hd : w.declares n) :
    last? n (expanded ds) = last? n w.longhands := by
  induction ds
  case nil => simp at hw
  case cons d ds ih =>
    obtain ⟨hod, hor⟩ := List.forall_mem_cons.mp ho
    rw [last?_expanded_cons]
    rw [last?_cons] at hw
    cases hm : last? m ds
    case some v =>
      rw [hm, Option.some_or, Option.some.injEq] at hw
      rw [ih hor (hw ▸ hm)]
      cases he : last? n w.longhands
      case some => rfl
      case none => rw [last?_longhands_eq_none_iff, hd] at he; cases he
    case none =>
      rw [hm, Option.none_or, Option.ite_none_right_eq_some, Option.some.injEq] at hw
      have : last? n (expanded ds) = none := by
        rw [last?_expanded_eq_none_iff, List.any_eq_false]
        exact fun e he hn => last?_eq_none_iff.mp hm e he (hor e he hn)
      rw [this, Option.none_or, hw.2]

end Declaration

open Declaration

-- A shorthand that can be created: its parts, and their value in one. The parts are proper if the
-- shorthand tells them apart, and one of them is spelled as it is in the shorthand or when left out.
structure Creation where
  shorthand : String
  names : List String
  value? : Longhands → Option Value
  proper : Longhands → Bool := fun _ => true
  spelled : (name : String) → Value → Bool := fun _ _ => true

namespace Creation

def takes (c : Creation) (d : Declaration) : Bool :=
  c.names.contains d.name

def create (c : Creation) (rs : RuleSet) : Fresh RuleSet :=
  rs.createWith c.shorthand c.names c.value?

-- The rules that make the shorthand and its value, if it is created.
def made? (c : Creation) (rs : RuleSet) : Option (Longhands × Value) :=
  (Longhands.collect? c.names rs).bind fun l => (c.value? l).map (l, ·)

-- The declarations in front of the first part, and those behind it that are no part.
def front (c : Creation) (ds : List Declaration) : List Declaration :=
  ds.takeWhile (!c.takes ·)

def left (c : Creation) (ds : List Declaration) : List Declaration :=
  (ds.dropWhile (!c.takes ·)).filter (!c.takes ·)

def taken (c : Creation) (ds : List Declaration) : List Declaration :=
  ds.filter c.takes

-- Whether no declaration of a name that is no part stands in front of a part that declares it.
def inOrder (c : Creation) (n : String) : List Declaration → Bool
  | [] => true
  | d :: ds =>
    c.inOrder n ds && (c.takes d || !d.declares n || ds.all fun e => !(c.takes e && e.declares n))

-- Whether the new rule fills in what counts: a name that is declared in front of the parts.
def fillsIn (c : Creation) (n : String) (new : Declaration) (ds : List Declaration) : Bool :=
  new.declares n && (c.front ds).any (declares n)

-- What must be so for a creation to change nothing that a name declares. What is declared behind
-- the parts counts before and after; what is declared by them must be read back.
def keeps (c : Creation) (n : String) (rs : RuleSet) : Bool :=
  match c.made? rs with
  | none => true
  | some (l, v) =>
    c.inOrder n (rs.declarations.dropWhile (!c.takes ·)) &&
      ((c.left rs.declarations).any (declares n) ||
        match last? n (expanded (c.taken rs.declarations)) with
        | some d => c.proper l && c.spelled n d.value
        | none => !c.fillsIn n (l.first.derive c.shorthand v) rs.declarations)

end Creation

namespace Longhands

variable {names : List String} {rs : RuleSet} {l : Longhands}

theorem of_collect? (h : collect? names rs = some l) :
    l.first.toDeclaration ∈ rs.declarations.filter (names.contains ·.name) ∧
      (∀ d ∈ rs.declarations.filter (names.contains ·.name), d.important = l.first.important) ∧
      ∀ n, l.value? n =
        (last? n (rs.declarations.filter (names.contains ·.name))).map (·.value) := by
  have hm : rs.declarations.filter (names.contains ·.name) =
      (rs.filter (names.contains ·.name)).map Rule.toDeclaration := by
    simp [RuleSet.declarations, List.filter_map]
    rfl
  unfold collect? at h
  split at h
  · cases h
  · rename_i first rest hf
    simp only [Option.ite_none_right_eq_some, List.all_eq_true, beq_iff_eq, Option.some.injEq] at h
    obtain ⟨ha, rfl⟩ := h
    rw [hm, hf]
    refine ⟨by simp, ?_, fun n => ?_⟩
    · simpa using ha
    · rw [← RuleSet.declarations, ← RuleSet.last?_declarations]
      simp only [value?, Cascade.ofRules, Cascade.lookup_foldl_put, List.lookup_nil, Option.or_none]
      cases RuleSet.last? (first :: rest) n <;> rfl

theorem not_of_any {p : Value → Bool} (h : l.any p = false) {n : String} {v : Value}
    (hv : l.value? n = some v) : p v = false := by
  obtain ⟨r, hr, hd⟩ := Option.map_eq_some_iff.mp hv
  obtain ⟨_, _, he, _⟩ := List.lookup_eq_some_iff.mp hr
  simp only [any, List.any_eq_false, Bool.not_eq_true] at h
  have := h (n, r) (by simp [he])
  rwa [hd] at this

-- A value that is said in a shorthand. What is as it would be without it need not be said.
def said (l : Longhands) (name initial : String) : Option Value :=
  (l.value? name).filter fun v => !v.isKeyword initial

-- Whether a value that says the same as the initial one is that very word.
def isSpelled (initial : String) (v : Value) : Bool :=
  !v.isKeyword initial || v.same (.keyword initial)

theorem agrees_said {name initial : String} {w : Value} (hw : l.value? name = some w)
    (h : isSpelled initial w) : w.Agrees ((l.said name initial).getD (.keyword initial)) := by
  by_cases hi : w.isKeyword initial
  · have hn : l.said name initial = none := by simp [said, hw, hi]
    simp only [isSpelled, hi, Bool.not_true, Bool.false_or] at h
    exact hn ▸ .inr h
  · have hs : l.said name initial = some w := by simp [said, hw, hi]
    exact hs ▸ .inl rfl

theorem of_mem_said {name initial : String} {w : Value} (h : w ∈ (l.said name initial).toList) :
    l.value? name = some w ∧ w.isKeyword initial = false := by
  simpa [said, Option.filter_eq_some_iff] using Option.mem_toList.mp h

end Longhands

namespace Creation

variable {c : Creation} {n : String} {d : Declaration} {ds : List Declaration} {rs : RuleSet}
  {l : Longhands} {v : Value} {next : RuleId}

theorem create_of_made?_none (h : c.made? rs = none) : (c.create rs).run next = (rs, next) := by
  simp only [made?, Option.bind_eq_none_iff, Option.map_eq_none_iff] at h
  simp only [create, RuleSet.createWith]
  cases hl : Longhands.collect? c.names rs
  case none => rfl
  case some l => simp only [h l hl]; rfl

theorem declarations_create (h : c.made? rs = some (l, v)) :
    RuleSet.declarations ((c.create rs).run next).1 =
      c.front rs.declarations ++ l.first.derive c.shorthand v :: c.left rs.declarations := by
  simp only [made?, Option.bind_eq_some_iff, Option.map_eq_some_iff, Prod.mk.injEq] at h
  obtain ⟨l', hl, v', hv, rfl, rfl⟩ := h
  simp only [create, RuleSet.createWith, hl, hv]
  refine Eq.trans (b := (RuleSet.replaceWhere (fun r => c.names.contains r.name)
    ⟨l'.first.derive c.shorthand v', next⟩ rs).map Rule.toDeclaration) rfl ?_
  simp only [RuleSet.replaceWhere, List.map_append, List.map_cons, front, left,
    RuleSet.declarations, List.takeWhile_map, List.dropWhile_map, List.filter_map]
  rfl

-- If the parts stand in order, it makes no difference that they move in front of the others.
theorem last?_expanded_of_inOrder (h : c.inOrder n ds) :
    last? n (expanded ds) = (last? n (expanded (ds.filter (!c.takes ·)))).or
      (last? n (expanded (ds.filter c.takes))) := by
  induction ds
  case nil => rfl
  case cons d ds ih =>
    simp only [inOrder, Bool.and_eq_true, Bool.or_eq_true, Bool.not_eq_true'] at h
    rw [last?_expanded_cons, ih h.1]
    by_cases ht : c.takes d
    · simp [ht, last?_expanded_cons, Option.or_assoc]
    · rcases h.2 with (hd | hd) | hd
      · exact absurd hd ht
      · simp [ht, last?_expanded_cons, last?_longhands_eq_none_iff.mpr hd]
      · have : last? n (expanded (ds.filter c.takes)) = none := by
          rw [last?_expanded_eq_none_iff]
          simp only [List.all_eq_true, List.any_eq_false, List.mem_filter] at hd ⊢
          intro e ⟨he, htk⟩
          simpa [htk] using hd e he
        simp [ht, last?_expanded_cons, this]

-- No part stands in front of the first one.
theorem filter_dropWhile (ds : List Declaration) :
    (ds.dropWhile (!c.takes ·)).filter c.takes = c.taken ds := by
  have hf : (ds.takeWhile (!c.takes ·)).filter c.takes = [] := by
    simp only [List.filter_eq_nil_iff, Bool.not_eq_true]
    intro d hd
    simpa using List.all_eq_true.mp List.all_takeWhile d hd
  have := congrArg (List.filter c.takes)
    (@List.takeWhile_append_dropWhile _ (!c.takes ·) ds)
  rwa [List.filter_append, hf, List.nil_append] at this

theorem of_made? (h : c.made? rs = some (l, v)) :
    c.value? l = some v ∧ l.first.toDeclaration ∈ c.taken rs.declarations ∧
      (∀ d ∈ c.taken rs.declarations, d.important = l.first.important) ∧
      ∀ n, l.value? n = (last? n (c.taken rs.declarations)).map (·.value) := by
  simp only [made?, Option.bind_eq_some_iff, Option.map_eq_some_iff, Prod.mk.injEq] at h
  obtain ⟨l, hl, v, hv, rfl, rfl⟩ := h
  exact ⟨hv, Longhands.of_collect? hl⟩

theorem name_of_mem_taken (h : d ∈ c.taken ds) : d.name ∈ c.names := by
  simpa [takes] using (List.mem_filter.mp h).2

theorem mem_of_mem_taken (h : d ∈ c.taken ds) : d ∈ ds :=
  (List.mem_filter.mp h).1

-- What it means that a creation undoes its expansion.
def ReadsBack (c : Creation) : Prop :=
  ∀ {rs : RuleSet} {l : Longhands} {v : Value}, c.made? rs = some (l, v) → c.proper l →
    (∀ d ∈ rs.declarations, d.name ∉ Declaration.shorthands → Value.hasShape .whole d.value) →
    ∀ n ∉ Declaration.shorthands, ∀ d, last? n (expanded (c.taken rs.declarations)) = some d →
      c.spelled n d.value →
        ∃ e, last? n (l.first.derive c.shorthand v).longhands = some e ∧ d.value.Agrees e.value

theorem important_of_last?_taken (h : c.made? rs = some (l, v)) {e : Declaration}
    (hd : last? n (expanded (c.taken rs.declarations)) = some d)
    (he : last? n (l.first.derive c.shorthand v).longhands = some e) :
    d.important = e.important := by
  obtain ⟨t, ht, hdt⟩ := List.mem_flatMap.mp (mem_of_last? hd)
  calc d.important
    _ = t.important := (Derives.of_mem_longhands hdt).important
    _ = l.first.important := (of_made? h).2.2.1 t ht
    _ = e.important := (Derives.of_mem_longhands (mem_of_last? he)).important.symm

theorem declared?_create (hc : c.ReadsBack) (hn : n ∉ Declaration.shorthands)
    (hs : ∀ d ∈ rs.declarations, d.name ∉ Declaration.shorthands → Value.hasShape .whole d.value)
    (hk : c.keeps n rs) (hd : rs.declared? n = some d) (next : RuleId) :
    ∃ e, RuleSet.declared? n ((c.create rs).run next).1 = some e ∧ d.Agrees e := by
  cases hm : c.made? rs
  case none => exact ⟨d, by rw [create_of_made?_none hm, hd], Agrees.refl d⟩
  case some made =>
    obtain ⟨l, v⟩ := made
    simp only [keeps, hm, Bool.and_eq_true, Bool.or_eq_true] at hk
    obtain ⟨ho, hk⟩ := hk
    have hdec : ∀ ss : RuleSet, ss.declared? n = last? n (expanded ss.declarations) := fun _ => rfl
    rw [hdec, declarations_create hm, last?_expanded_append, last?_expanded_cons]
    rw [hdec, ← @List.takeWhile_append_dropWhile _ (!c.takes ·) rs.declarations,
      last?_expanded_append, last?_expanded_of_inOrder ho, filter_dropWhile] at hd
    change ((last? n (expanded (c.left _))).or _).or (last? n (expanded (c.front _))) = _ at hd
    -- The declaration that counts is behind the parts, one of them, or in front of them.
    cases hl : last? n (expanded (c.left rs.declarations))
    case some e =>
      rw [hl, Option.some_or, Option.some_or, Option.some.injEq] at hd
      exact ⟨e, rfl, hd ▸ Agrees.refl e⟩
    case none =>
      rw [hl, Option.none_or] at hd
      replace hk := hk.resolve_left (by simp [last?_expanded_eq_none_iff.mp hl])
      simp only [Option.none_or]
      cases ht : last? n (expanded (c.taken rs.declarations))
      case some t =>
        rw [ht, Option.some_or, Option.some.injEq] at hd
        rw [ht, Bool.and_eq_true] at hk
        obtain ⟨e, he, ha⟩ := hc hm hk.1 hs n hn t ht hk.2
        exact ⟨e, by rw [he, Option.some_or], hd ▸ ⟨ha, important_of_last?_taken hm ht he⟩⟩
      case none =>
        rw [ht, Option.none_or] at hd
        rw [ht, Bool.not_eq_true', fillsIn, Bool.and_eq_false_iff] at hk
        have hfront : (c.front rs.declarations).any (declares n) := by
          rw [← Bool.not_eq_false, ← last?_expanded_eq_none_iff, hd]
          simp
        have hnew := hk.resolve_right (by simp [hfront])
        exact ⟨d, by rw [last?_longhands_eq_none_iff.mpr hnew, hd, Option.none_or], Agrees.refl d⟩

-- Where no part is a shorthand and the new rule declares all of them, it is enough to compare its
-- values with those that there were.
theorem readsBack_of_parts (hc : ∀ n ∈ c.names, n ∉ Declaration.shorthands) (hd : c.names.Nodup)
    (h : ∀ {l : Longhands} {v : Value}, c.value? l = some v → c.proper l →
      (∀ n w, l.value? n = some w → Value.hasShape .whole w) →
      ∃ values, (l.first.derive c.shorthand v).longhands =
          List.zipWith (l.first.derive c.shorthand v).derive c.names values ∧
        List.Forall₂ (fun n w' => ∀ w, l.value? n = some w → c.spelled n w → w.Agrees w')
          c.names values) :
    c.ReadsBack := by
  intro rs l v hm hp hs n _
  obtain ⟨hv, _, _, hl⟩ := of_made? hm
  have hx : expanded (c.taken rs.declarations) = c.taken rs.declarations :=
    expanded_of_names fun d hd => hc _ (name_of_mem_taken hd)
  obtain ⟨values, he, ha⟩ := h hv hp fun n w hw => by
    rw [hl n] at hw
    obtain ⟨d, hd, hv⟩ := Option.map_eq_some_iff.mp hw
    have ht := mem_of_last? hd
    exact hv ▸ hs d (mem_of_mem_taken ht) (hc _ (name_of_mem_taken ht))
  rw [hx, he]
  intro d ht hsp
  have hn := name_of_last? ht ▸ name_of_mem_taken (mem_of_last? ht)
  obtain ⟨w, hw, ha⟩ := lookup_zip_of_forall₂ ha hn
  exact ⟨_, by rw [last?_zipWith hd, hw]; rfl, ha d.value (by rw [hl n, ht]; rfl) hsp⟩

end Creation
end Stylesheet
