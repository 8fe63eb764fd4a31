import Stylesheet.Shorthand.All
/-!
Identities under edits of a rule set. Work on rules keeps the identities of some, and gives out new
ones that no rule had before; so they stay distinct, and what goes by an identity comes to the rule
that it was given to. Main statements: `RuleSet.Operation.renews`, `RuleSet.addresses_of_nodup`, and that
transforms may look for their rules by identity (`RuleSet.expandEach_eq`, `RuleSet.replace?_eq`).
-/

namespace Stylesheet

-- What is done to the declaration of each rule, by its identity.
abbrev Changes := RuleId → List (Declaration → Declaration)

theorem Rule.id_foldl_edit (fs : List (Declaration → Declaration)) (r : Rule) :
    (fs.foldl edit r).id = r.id := by
  induction fs generalizing r
  case nil => rfl
  case cons f fs ih => exact ih (r.edit f)

namespace RuleSet

def ids (rs : List Rule) : List RuleId :=
  rs.map Rule.id

@[simp] theorem ids_append (rs ss : List Rule) : ids (rs ++ ss) = ids rs ++ ids ss :=
  List.map_append

-- From some rules to others, while the next identity to give out goes from one to the other: no
-- identity has more rules than before but for the new ones, which have one at most, and a rule with
-- an old identity is what the changes make of the one that had it.
structure Renews (changes : Changes) (next next' : Nat) (rs rs' : List Rule) : Prop where
  le : next ≤ next'
  count_le : ∀ id : Nat, (ids rs').count id ≤
    (ids rs).count id + if next ≤ id ∧ id < next' then 1 else 0
  follows : ∀ r' ∈ rs', (next ≤ r'.id ∧ r'.id < next') ∨
    ∃ r ∈ rs, ∃ fs : List (Declaration → Declaration),
      fs.Sublist (changes r.id) ∧ r' = fs.foldl Rule.edit r

namespace Renews

variable {changes changes' : Changes} {n n' n'' : Nat} {rs rs' rs'' ss ss' : List Rule}

theorem trans (h₁ : Renews changes n n' rs rs') (h₂ : Renews changes' n' n'' rs' rs'') :
    Renews (fun id => changes id ++ changes' id) n n'' rs rs'' where
  le := Nat.le_trans h₁.le h₂.le
  count_le id := by
    have hle := h₁.le
    have hle' := h₂.le
    have hcount := h₁.count_le id
    have hcount' := h₂.count_le id
    split at hcount <;> split at hcount' <;> split <;> omega
  follows r'' hr'' := by
    obtain hnew | ⟨r', hr', fs', hs', rfl⟩ := h₂.follows r'' hr''
    case inl => exact .inl ⟨Nat.le_trans h₁.le hnew.1, hnew.2⟩
    case inr =>
      obtain hnew | ⟨r, hr, fs, hs, rfl⟩ := h₁.follows r' hr'
      case inl =>
        rw [Rule.id_foldl_edit]
        exact .inl ⟨hnew.1, Nat.lt_of_lt_of_le hnew.2 h₂.le⟩
      case inr =>
        rw [Rule.id_foldl_edit] at hs'
        exact .inr ⟨r, hr, fs ++ fs', hs.append hs', List.foldl_append.symm⟩

theorem append (h₁ : Renews changes n n' rs rs') (h₂ : Renews changes n' n'' ss ss') :
    Renews changes n n'' (rs ++ ss) (rs' ++ ss') where
  le := Nat.le_trans h₁.le h₂.le
  count_le id := by
    have hle := h₁.le
    have hle' := h₂.le
    have hcount := h₁.count_le id
    have hcount' := h₂.count_le id
    simp only [ids_append, List.count_append]
    split at hcount <;> split at hcount' <;> split <;> omega
  follows r' hr' := by
    obtain hr' | hr' := List.mem_append.mp hr'
    case inl =>
      obtain hnew | ⟨r, hr, h⟩ := h₁.follows r' hr'
      · exact .inl ⟨hnew.1, Nat.lt_of_lt_of_le hnew.2 h₂.le⟩
      · exact .inr ⟨r, List.mem_append_left _ hr, h⟩
    case inr =>
      obtain hnew | ⟨r, hr, h⟩ := h₂.follows r' hr'
      · exact .inl ⟨Nat.le_trans h₁.le hnew.1, hnew.2⟩
      · exact .inr ⟨r, List.mem_append_right _ hr, h⟩

theorem refl : Renews changes n n rs rs where
  le := Nat.le_refl n
  count_le _ := Nat.le_add_right ..
  follows r hr := .inr ⟨r, hr, [], List.nil_sublist _, rfl⟩

-- Then some rules may be dropped, and the others put into another order.
theorem sublist (h : Renews changes n n' rs rs') (hs : rs''.Sublist rs') :
    Renews changes n n' rs rs'' where
  le := h.le
  count_le id := Nat.le_trans ((hs.map Rule.id).count_le id) (h.count_le id)
  follows r hr := h.follows r (hs.subset hr)

theorem perm (h : Renews changes n n' rs rs') (hp : rs''.Perm rs') :
    Renews changes n n' rs rs'' where
  le := h.le
  count_le id := by
    rw [ids, (hp.map Rule.id).count_eq id]
    exact h.count_le id
  follows r hr := h.follows r (hp.subset hr)

-- Then rules may come in the place of others.
theorem instead (h : Renews changes n n' [] rs') : Renews changes n n' rs rs' :=
  (h.append (@refl changes n' rs)).sublist (List.sublist_append_left ..)

theorem fresh (d : Declaration) (n : Nat) :
    Renews changes n ((Rule.fresh d).run n).2 [] [((Rule.fresh d).run n).1] where
  le := Nat.le_succ n
  count_le id := by
    change [n].count id ≤ [].count id + if n ≤ id ∧ id < n + 1 then 1 else 0
    rw [List.count_singleton]
    split <;> split <;> simp_all
  follows r hr := by
    rw [List.mem_singleton.mp hr]
    exact .inl ⟨Nat.le_refl n, Nat.lt_succ_self n⟩

theorem freshAll (ds : List Declaration) (n : Nat) :
    Renews changes n ((Rule.freshAll ds).run n).2 [] ((Rule.freshAll ds).run n).1 := by
  induction ds generalizing n
  case nil => exact refl
  case cons d ds ih => exact (fresh d n).append (ih (n + 1))

end Renews

/-! ### Transforms -/

-- Work on a rule set that changes no declaration.
def IsRenewal (work : RuleSet → Fresh RuleSet) : Prop :=
  ∀ rs n, Renews (fun _ => []) n ((work rs).run n).2 rs ((work rs).run n).1

theorem IsRenewal.bind {work work' : RuleSet → Fresh RuleSet} (h : IsRenewal work)
    (h' : IsRenewal work') : IsRenewal fun rs => work rs >>= work' :=
  fun rs n => (h rs n).trans (h' ((work rs).run n).1 ((work rs).run n).2)

theorem renews_replaceWhere {changes : Changes} {n : Nat} (isOld : Rule → Bool) (d : Declaration)
    (rs : RuleSet) : Renews changes n ((Rule.fresh d).run n).2 rs
      (rs.replaceWhere isOld ((Rule.fresh d).run n).1) := by
  have hall := (@Renews.fresh changes d n).append (@Renews.refl changes (n + 1) rs)
  have hkept : (rs.takeWhile (!isOld ·) ++ (rs.dropWhile (!isOld ·)).filter (!isOld ·)).Sublist
      (rs.takeWhile (!isOld ·) ++ rs.dropWhile (!isOld ·)) :=
    (List.Sublist.refl _).append List.filter_sublist
  rw [List.takeWhile_append_dropWhile] at hkept
  exact (hall.sublist (hkept.cons_cons _)).perm List.perm_middle

theorem isRenewal_expandWith (expand? : Declaration → Option (List Declaration)) :
    IsRenewal (expandWith expand?) := by
  intro rs n
  induction rs generalizing n
  case nil => exact .refl
  case cons r rs ih =>
    simp only [expandWith]
    cases expand? r.toDeclaration
    case none => exact (@Renews.refl (fun _ => []) n [r]).append (ih n)
    case some parts =>
      have hnew := @Renews.instead (fun _ => []) n _ [r] _ (.freshAll parts n)
      exact hnew.append (ih ((Rule.freshAll parts).run n).2)

theorem isRenewal_createWith (shorthand : String) (names : List String)
    (value? : Longhands → Option Value) : IsRenewal (createWith shorthand names value?) := by
  intro rs n
  unfold createWith
  split
  · exact .refl
  · split
    · exact .refl
    · exact renews_replaceWhere ..

theorem isRenewal_createFamilies (families : List String) :
    IsRenewal (createFamilies families) := by
  induction families
  case nil => exact fun rs n => .refl
  case cons family families ih => exact (isRenewal_createWith _ _ _).bind ih

-- The shorthands that a transform is about.
inductive Family where
  | all
  | border
  | sides
  | font
  | background

namespace Family

def expand : Family → RuleSet → Fresh RuleSet
  | all => expandAll
  | border => expandBorder
  | sides => expandSides
  | font => expandFont
  | background => expandBackground

def create : Family → RuleSet → Fresh RuleSet
  | all => createAll
  | border => createBorder
  | sides => createSides
  | font => createFont
  | background => createBackground

theorem isRenewal_expand (family : Family) : IsRenewal family.expand := by
  cases family
  case all =>
    exact (isRenewal_expandWith _).bind ((isRenewal_expandWith _).bind
      ((isRenewal_expandWith _).bind (isRenewal_expandWith _)))
  all_goals exact isRenewal_expandWith _

theorem isRenewal_create (family : Family) : IsRenewal family.create := by
  cases family
  case all =>
    exact (isRenewal_createWith _ _ _).bind ((isRenewal_createFamilies _).bind
      ((isRenewal_createWith _ _ _).bind (isRenewal_createWith _ _ _)))
  case sides => exact isRenewal_createFamilies _
  all_goals exact isRenewal_createWith _ _ _

end Family

/-! ### Operations -/

-- A way to put rules into another order, for which they keep their identities.
structure Reordering where
  apply : RuleSet → RuleSet
  perm : ∀ rs, (apply rs).Perm rs

-- What can be done to a rule set. New rules are made of declarations; a clone is one that is made of
-- the declaration of another rule.
inductive Operation where
  | add (d : Declaration) (before : Option RuleId)
  | setRules (ds : List Declaration)
  | splice (id : RuleId) (ds : List Declaration)
  | replace (ids : List RuleId) (d : Declaration)
  | remove (id : RuleId)
  | removeMatching (pattern : String)
  | reorder (order : Reordering)
  -- Sets the name, the value or the importance of a rule.
  | edit (id : RuleId) (f : Declaration → Declaration)
  | expand (family : Family)
  | create (family : Family)

namespace Operation

def run : Operation → RuleSet → Fresh RuleSet
  | add d before, rs => return rs.add (← Rule.fresh d) before
  | setRules ds, _ => Rule.freshAll ds
  | splice id ds, rs => return (rs.splice? id (← Rule.freshAll ds)).getD rs
  | replace ids d, rs => return (rs.replace? ids (← Rule.fresh d)).getD rs
  | remove id, rs => return rs.remove id
  | removeMatching pattern, rs => return rs.removeMatching pattern
  | reorder order, rs => return order.apply rs
  | edit id f, rs => return rs.edit id f
  | expand family, rs => family.expand rs
  | create family, rs => family.create rs

def changes : Operation → Changes
  | edit id f, id' => if id' = id then [f] else []
  | _, _ => []

end Operation

theorem add_perm (r : Rule) (before : Option RuleId) (rs : RuleSet) :
    (rs.add r before).Perm (r :: rs) := by
  unfold add
  split
  case h_1 index h =>
    obtain ⟨id, -, hid⟩ := Option.bind_eq_some_iff.mp h
    obtain ⟨hindex, -⟩ := List.findIdx?_eq_some_iff_getElem.mp hid
    exact List.perm_insertIdx r rs (Nat.le_of_lt hindex)
  case h_2 => exact List.perm_append_singleton r rs

theorem splice?_perm {id : RuleId} {new rs rs' : List Rule} (h : splice? id new rs = some rs') :
    ∃ kept, kept.Sublist rs ∧ rs'.Perm (new ++ kept) := by
  obtain ⟨index, -, rfl⟩ := Option.map_eq_some_iff.mp h
  refine ⟨rs.take index ++ rs.drop (index + 1), ?_, ?_⟩
  · have hdrop := List.drop_sublist_drop_left rs (Nat.le_succ index)
    have := (List.Sublist.refl (rs.take index)).append hdrop
    rwa [List.take_append_drop] at this
  · rw [← List.append_assoc]
    exact List.Perm.append_right _ List.perm_append_comm

theorem Renews.edited {changes : Changes} {r : Rule} {fs : List (Declaration → Declaration)}
    (h : fs.Sublist (changes r.id)) (n : Nat) :
    Renews changes n n [r] [fs.foldl Rule.edit r] where
  le := Nat.le_refl n
  count_le id := by
    simp only [ids, List.map_cons, List.map_nil, Rule.id_foldl_edit]
    exact Nat.le_add_right ..
  follows r' hr' := .inr ⟨r, List.mem_singleton_self r, fs, h, List.mem_singleton.mp hr'⟩

theorem renews_edit (id : RuleId) (f : Declaration → Declaration) (rs : RuleSet) (n : Nat) :
    Renews (Operation.edit id f).changes n n rs (rs.edit id f) := by
  induction rs
  case nil => exact .refl
  case cons r rs ih =>
    rw [edit]
    split
    case isTrue h =>
      have hr : [f].Sublist ((Operation.edit id f).changes r.id) := by
        simp [Operation.changes, h]
      exact (Renews.edited hr n).append (@Renews.refl _ n rs)
    case isFalse => exact (@Renews.refl _ n [r]).append ih

theorem Operation.renews (op : Operation) (rs : RuleSet) (n : Nat) :
    Renews op.changes n ((op.run rs).run n).2 rs ((op.run rs).run n).1 := by
  cases op
  case add d before =>
    exact ((Renews.fresh d n).append .refl).perm (add_perm ..)
  case setRules ds => exact (Renews.freshAll ds n).instead
  case splice id ds =>
    have hall := (@Renews.freshAll (fun _ => []) ds n).append (@Renews.refl _ _ rs)
    change Renews _ n _ rs ((rs.splice? id ((Rule.freshAll ds).run n).1).getD rs)
    cases hs : rs.splice? id ((Rule.freshAll ds).run n).1
    case none => exact hall.sublist (List.sublist_append_right ..)
    case some rs' =>
      obtain ⟨kept, hkept, hperm⟩ := splice?_perm hs
      exact (hall.sublist ((List.Sublist.refl _).append hkept)).perm hperm
  case replace ids d =>
    change Renews _ n _ rs ((rs.replace? ids ((Rule.fresh d).run n).1).getD rs)
    cases hany : rs.any (ids.contains ·.id)
    case true =>
      rw [replace?, if_pos hany]
      exact renews_replaceWhere ..
    case false =>
      rw [replace?, if_neg (hany ▸ Bool.false_ne_true)]
      exact ((Renews.fresh d n).append (@Renews.refl _ _ rs)).sublist (List.sublist_cons_self ..)
  case remove id => exact Renews.refl.sublist List.filter_sublist
  case removeMatching pattern => exact Renews.refl.sublist List.filter_sublist
  case reorder order => exact Renews.refl.perm (order.perm rs)
  case edit id f => exact renews_edit id f rs n
  case expand family => exact family.isRenewal_expand rs n
  case create family => exact family.isRenewal_create rs n

/-! ### Rules by their identities -/

-- Rules with an identity of their own each, given out before the next one.
structure Distinct (next : Nat) (rs : List Rule) : Prop where
  nodup : (ids rs).Nodup
  lt : ∀ r ∈ rs, r.id < next

theorem Renews.distinct {changes : Changes} {n n' : Nat} {rs rs' : List Rule}
    (h : Renews changes n n' rs rs') (hd : Distinct n rs) : Distinct n' rs' where
  nodup := by
    refine List.nodup_iff_count.mpr fun id => Nat.le_trans (h.count_le id) ?_
    split
    case isTrue hid =>
      -- No rule had one of the new identities.
      have hnot : id ∉ ids rs := by
        intro hm
        obtain ⟨r, hr, rfl⟩ := List.mem_map.mp hm
        exact Nat.not_lt.mpr hid.1 (hd.lt r hr)
      have hzero := List.count_eq_zero.mpr hnot
      omega
    case isFalse => exact List.nodup_iff_count.mp hd.nodup id
  lt r' hr' := by
    obtain hnew | ⟨r, hr, fs, -, rfl⟩ := h.follows r' hr'
    · exact hnew.2
    · rw [Rule.id_foldl_edit]
      exact Nat.lt_of_lt_of_le (hd.lt r hr) h.le

-- What goes by the identity of a rule comes to that rule, which has this index.
structure Addresses (rs : RuleSet) (r : Rule) (index : Nat) : Prop where
  find? : rs.find? r.id = some r
  position? : rs.position? r.id = some index
  edit : ∀ f, rs.edit r.id f = rs.set index (r.edit f)
  remove : rs.remove r.id = rs.eraseIdx index
  add : ∀ new, rs.add new (some r.id) = rs.insertIdx index new
  splice? : ∀ new, rs.splice? r.id new = some (rs.take index ++ new ++ rs.drop (index + 1))

theorem exists_of_getElem? {rs : List Rule} {r : Rule} {index : Nat} (h : rs[index]? = some r) :
    ∃ front back, rs = front ++ r :: back ∧ front.length = index := by
  obtain ⟨hlt, rfl⟩ := List.getElem?_eq_some_iff.mp h
  refine ⟨rs.take index, rs.drop (index + 1), ?_, List.length_take_of_le (Nat.le_of_lt hlt)⟩
  rw [← List.drop_eq_getElem_cons hlt, List.take_append_drop]

-- No rule but the one with the identity is concerned.
theorem not_mem_ids {id : RuleId} {rs : List Rule} (h : id ∉ ids rs) : ∀ r ∈ rs, r.id ≠ id := by
  rintro r hr rfl
  exact h (List.mem_map_of_mem hr)

theorem find?_of_not_mem {id : RuleId} {rs : RuleSet} (h : id ∉ ids rs) : rs.find? id = none := by
  simpa [find?] using not_mem_ids h

theorem position?_of_not_mem {id : RuleId} {rs : RuleSet} (h : id ∉ ids rs) :
    rs.position? id = none := by
  simpa [position?] using not_mem_ids h

theorem remove_of_not_mem {id : RuleId} {rs : RuleSet} (h : id ∉ ids rs) : rs.remove id = rs := by
  simpa [remove] using not_mem_ids h

theorem edit_of_not_mem {id : RuleId} {front : RuleSet} (h : id ∉ ids front)
    (f : Declaration → Declaration) (rs : RuleSet) :
    edit id f (front ++ rs) = front ++ edit id f rs := by
  induction front
  case nil => rfl
  case cons r front ih =>
    simp only [ids, List.map_cons, List.mem_cons, not_or] at h
    rw [List.cons_append, edit, if_neg (Ne.symm h.1), ih h.2, List.cons_append]

theorem addresses_of_nodup {rs : RuleSet} {r : Rule} {index : Nat} (hn : (ids rs).Nodup)
    (h : rs[index]? = some r) : Addresses rs r index := by
  obtain ⟨front, back, rfl, rfl⟩ := exists_of_getElem? h
  obtain ⟨-, hback, hdisjoint⟩ := List.nodup_append.mp (ids_append .. ▸ hn)
  have hfront : r.id ∉ ids front := fun hm => hdisjoint _ hm _ List.mem_cons_self rfl
  have hback : r.id ∉ ids back := (List.nodup_cons.mp hback).1
  have hposition : position? (front ++ r :: back) r.id = some front.length := by
    have hnone : front.findIdx? (·.id == r.id) = none := position?_of_not_mem hfront
    simp [RuleSet.position?, List.findIdx?_append, hnone, List.findIdx?_cons]
  constructor
  case find? =>
    have hnone : List.find? (·.id == r.id) front = none := find?_of_not_mem hfront
    simp [RuleSet.find?, List.find?_append, hnone]
  case position? => exact hposition
  case edit =>
    intro f
    rw [edit_of_not_mem hfront, RuleSet.edit, if_pos rfl]
    simp
  case remove =>
    have hf : front.filter (·.id != r.id) = front := remove_of_not_mem hfront
    have hb : back.filter (·.id != r.id) = back := remove_of_not_mem hback
    rw [RuleSet.remove, List.filter_append, List.filter_cons_of_neg (by simp), hf, hb,
      List.eraseIdx_append_of_length_le (Nat.le_refl _), Nat.sub_self, List.eraseIdx_cons_zero]
  case add => simp [RuleSet.add, hposition]
  case splice? => simp [RuleSet.splice?, hposition]

/-! ### Transforms by identities -/

-- Takes the rules with these identities apart, each where it is found.
def expandEach (expand? : Declaration → Option (List Declaration)) :
    List RuleId → RuleSet → Fresh RuleSet
  | [], rs => return rs
  | id :: targets, rs =>
    match (rs.find? id).bind fun r => expand? r.toDeclaration with
    | some ds => do
      let new ← Rule.freshAll ds
      expandEach expand? targets ((rs.splice? id new).getD rs)
    | none => expandEach expand? targets rs

-- Each rule gives way where it is, and no rule in front of it or in its place is taken for another.
theorem expandEach_append {expand? : Declaration → Option (List Declaration)} {names : List String}
    (hnames : ∀ d : Declaration, names.contains d.name = false → expand? d = none)
    {front rs : RuleSet} {n : Nat} (hd : Distinct n (front ++ rs)) :
    (expandEach expand? (ids (rs.filter (names.contains ·.name))) (front ++ rs)).run n =
      (front ++ ((expandWith expand? rs).run n).1, ((expandWith expand? rs).run n).2) := by
  induction rs generalizing front n
  case nil => rfl
  case cons r rs ih =>
    have hr := @addresses_of_nodup (front ++ r :: rs) r front.length hd.nodup (by simp)
    have hpass : front ++ r :: rs = front ++ [r] ++ rs := by simp
    cases hexpand : expand? r.toDeclaration
    case none =>
      -- Whether it is a target or not, the rule stays.
      have hrest := ih (hpass ▸ hd)
      rw [← hpass] at hrest
      simp only [expandWith, hexpand]
      refine Eq.trans ?_ (hrest.trans (by simp; rfl))
      rw [List.filter_cons]
      split
      case isTrue => simp [ids, expandEach, hr.find?, hexpand]
      case isFalse => rfl
    case some parts =>
      have htarget : names.contains r.name = true :=
        eq_true_of_ne_false fun h => by simp [hnames _ h] at hexpand
      let new := ((Rule.freshAll parts).run n).1
      let n' := ((Rule.freshAll parts).run n).2
      have hrenews : Renews (fun _ => []) n n' (front ++ [r] ++ rs) (front ++ new ++ rs) :=
        (Renews.refl.append (Renews.freshAll parts n).instead).append .refl
      have hrest := ih (hrenews.distinct (hpass ▸ hd))
      have hsplice : (splice? r.id new (front ++ r :: rs)).getD (front ++ r :: rs) =
          front ++ new ++ rs := by
        rw [hr.splice?]
        simp
      simp only [expandWith, hexpand, List.filter_cons, htarget, if_true, ids, List.map_cons,
        expandEach, hr.find?, Option.bind_some]
      change (expandEach expand? _ ((splice? r.id new (front ++ r :: rs)).getD _)).run n' = _
      rw [hsplice]
      refine hrest.trans ?_
      rw [List.append_assoc]
      rfl

theorem expandEach_eq {expand? : Declaration → Option (List Declaration)} {names : List String}
    (hnames : ∀ d : Declaration, names.contains d.name = false → expand? d = none) {rs : RuleSet}
    {n : Nat} (hd : Distinct n rs) :
    (expandEach expand? (ids (rs.filter (names.contains ·.name))) rs).run n =
      (expandWith expand? rs).run n :=
  @expandEach_append expand? names hnames [] rs n hd

theorem replaceWhere_congr {p q : Rule → Bool} {rs : RuleSet} (h : ∀ r ∈ rs, p r = q r)
    (new : Rule) : rs.replaceWhere p new = rs.replaceWhere q new := by
  induction rs
  case nil => rfl
  case cons r rs ih =>
    obtain ⟨hr, hrest⟩ := List.forall_mem_cons.mp h
    have ih := ih hrest
    have hfilter : rs.filter (!p ·) = rs.filter (!q ·) :=
      List.filter_congr fun r hm => by rw [hrest r hm]
    simp only [replaceWhere] at ih ⊢
    cases hq : q r <;> simp_all

theorem find?_of_mem {rs : RuleSet} {r : Rule} (hn : (ids rs).Nodup) (h : r ∈ rs) :
    rs.find? r.id = some r := by
  obtain ⟨index, hindex⟩ := List.getElem?_of_mem h
  exact (addresses_of_nodup hn hindex).find?

-- Where identities are distinct, a rule has one of those that were noted down only if it was chosen.
theorem contains_ids_filter {rs : RuleSet} {r : Rule} (hn : (ids rs).Nodup) (hr : r ∈ rs)
    (chosen : Rule → Bool) : (ids (rs.filter chosen)).contains r.id = chosen r := by
  refine Bool.eq_iff_iff.mpr ⟨fun hid => ?_, fun hchosen => ?_⟩
  · obtain ⟨s, hs, hid⟩ := List.mem_map.mp (List.contains_iff_mem.mp hid)
    obtain ⟨hs, hchosen⟩ := List.mem_filter.mp hs
    have hfind := find?_of_mem hn hs
    rw [hid, find?_of_mem hn hr] at hfind
    rwa [Option.some.inj hfind]
  · exact List.contains_iff_mem.mpr (List.mem_map_of_mem (List.mem_filter.mpr ⟨hr, hchosen⟩))

-- The rules that give way to a new one are those that have the identities of their names.
theorem replace?_eq {names : List String} {rs : RuleSet} (hn : (ids rs).Nodup)
    (h : rs.filter (names.contains ·.name) ≠ []) (new : Rule) :
    rs.replace? (ids (rs.filter (names.contains ·.name))) new =
      some (rs.replaceWhere (names.contains ·.name) new) := by
  have hsame : ∀ r ∈ rs, (ids (rs.filter (names.contains ·.name))).contains r.id =
      names.contains r.name := fun r hr => contains_ids_filter hn hr _
  obtain ⟨r, hr⟩ := List.exists_mem_of_ne_nil _ h
  obtain ⟨hr, hname⟩ := List.mem_filter.mp hr
  have hany : rs.any fun r => (ids (rs.filter (names.contains ·.name))).contains r.id :=
    List.any_eq_true.mpr ⟨r, hr, (hsame r hr).trans hname⟩
  rw [replace?, if_pos hany, replaceWhere_congr hsame]

end RuleSet
end Stylesheet
