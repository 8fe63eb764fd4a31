import Mathlib.Data.List.Basic
import Mathlib.Data.List.Induction
import Stylesheet.RuleSet
/-!
What counts of a rule set. The names are found forwards, where each occurs first, and the rules are
those that a search backwards comes to. Main statement: `RuleSet.cascade_consistent`.
-/

namespace Stylesheet

namespace Cascade

variable {cascade : Cascade} {entry : String × Rule} {rs : List Rule}

theorem mem_of_mem_put {r : Rule} (h : entry ∈ cascade.put r) : entry.2 = r ∨ entry ∈ cascade := by
  induction cascade
  case nil =>
    rw [put, List.mem_singleton] at h
    exact .inl (congrArg Prod.snd h)
  case cons head entries ih =>
    rw [put] at h
    split at h
    case isTrue =>
      rcases List.mem_cons.mp h with rfl | h
      · exact .inl rfl
      · exact .inr (List.mem_cons_of_mem _ h)
    case isFalse =>
      rcases List.mem_cons.mp h with rfl | h
      · exact .inr List.mem_cons_self
      · exact (ih h).imp_right (List.mem_cons_of_mem _)

theorem mem_of_mem_foldl_put (h : entry ∈ rs.foldl (fun cascade r => cascade.put r) cascade) :
    entry.2 ∈ rs ∨ entry ∈ cascade := by
  induction rs generalizing cascade
  case nil => exact .inr h
  case cons r rs ih =>
    rcases ih h with h | h
    · exact .inl (List.mem_cons_of_mem _ h)
    · refine (mem_of_mem_put h).imp_left fun he => ?_
      rw [he]
      exact List.mem_cons_self

theorem lookup_put (r : Rule) (cascade : Cascade) (n : String) :
    (cascade.put r).lookup n = if r.name = n then some r else cascade.lookup n := by
  have lookup_cons (m : String) (s : Rule) (entries : Cascade) :
      List.lookup n ((m, s) :: entries) = if m = n then some s else entries.lookup n := by
    by_cases h : m = n
    · simp [h]
    · have : (n == m) = false := by simpa using Ne.symm h
      simp [List.lookup_cons, h, this]
  induction cascade
  case nil => exact lookup_cons ..
  case cons entry entries ih =>
    obtain ⟨m, s⟩ := entry
    by_cases hr : m = r.name
    · rw [put, if_pos hr, lookup_cons, lookup_cons, hr]
      split <;> rfl
    · rw [put, if_neg hr, lookup_cons, lookup_cons, ih]
      by_cases hm : m = n
      · rw [if_pos hm, if_neg (hm ▸ Ne.symm hr), if_pos hm]
      · rw [if_neg hm, if_neg hm]

theorem lookup_foldl_put (rs : List Rule) (cascade : Cascade) (n : String) :
    (rs.foldl (fun cascade r => cascade.put r) cascade).lookup n =
      (RuleSet.last? rs n).or (cascade.lookup n) := by
  induction rs generalizing cascade
  case nil => simp [RuleSet.last?]
  case cons r rs ih =>
    rw [List.foldl_cons, ih, lookup_put]
    simp only [RuleSet.last?, List.reverse_cons, List.find?_append]
    by_cases h : r.name = n <;> simp [h]

/-! ### The names -/

def names (cascade : Cascade) : List String :=
  cascade.map Prod.fst

-- These are the names among all, each once, in the order in which they first occur.
structure FirstsOf (all firsts : List String) : Prop where
  nodup : firsts.Nodup
  mem_iff : ∀ n, n ∈ firsts ↔ n ∈ all
  ordered : firsts.Pairwise fun m n => all.idxOf m < all.idxOf n

theorem FirstsOf.nil : FirstsOf [] [] where
  nodup := List.nodup_nil
  mem_iff _ := Iff.rfl
  ordered := List.Pairwise.nil

theorem FirstsOf.concat {all firsts : List String} (h : FirstsOf all firsts) (n : String) :
    FirstsOf (all ++ [n]) (if n ∈ firsts then firsts else firsts ++ [n]) := by
  have hidx : ∀ m ∈ firsts, (all ++ [n]).idxOf m = all.idxOf m := fun m hm =>
    List.idxOf_append_of_mem ((h.mem_iff m).mp hm)
  have hordered : firsts.Pairwise fun l m => (all ++ [n]).idxOf l < (all ++ [n]).idxOf m :=
    h.ordered.imp_of_mem fun hl hm hlt => by rwa [hidx _ hl, hidx _ hm]
  split
  case isTrue hn =>
    refine ⟨h.nodup, fun m => ?_, hordered⟩
    rw [List.mem_append, List.mem_singleton, ← h.mem_iff]
    exact ⟨.inl, fun hm => hm.elim id (· ▸ hn)⟩
  case isFalse hn =>
    have hall : n ∉ all := fun hm => hn ((h.mem_iff n).mpr hm)
    refine ⟨?_, fun m => ?_, ?_⟩
    · exact List.nodup_append.mpr ⟨h.nodup, List.pairwise_singleton ..,
        fun m hm k hk => by rintro rfl; exact hn (List.mem_singleton.mp hk ▸ hm)⟩
    · rw [List.mem_append, List.mem_append, h.mem_iff]
    · refine List.pairwise_append.mpr ⟨hordered, List.pairwise_singleton .., fun m hm k hk => ?_⟩
      rw [List.mem_singleton.mp hk, hidx m hm, List.idxOf_append_of_notMem hall]
      exact Nat.lt_of_lt_of_le (List.idxOf_lt_length_of_mem ((h.mem_iff m).mp hm))
        (Nat.le_add_right ..)

-- A rule is entered in the place that its name has, or behind all others.
theorem names_put (r : Rule) (cascade : Cascade) : (cascade.put r).names =
    if r.name ∈ cascade.names then cascade.names else cascade.names ++ [r.name] := by
  induction cascade
  case nil => rfl
  case cons entry entries ih =>
    simp only [names, put, List.map_cons] at ih ⊢
    by_cases h : entry.1 = r.name
    · simp [h]
    · rw [if_neg h, List.map_cons, ih]
      by_cases hm : r.name ∈ entries.map Prod.fst <;> simp [hm, Ne.symm h]

theorem put_of_mem {r : Rule} (h : r.name ∈ cascade.names) (hn : cascade.names.Nodup) :
    cascade.put r = cascade.map fun entry => if entry.1 = r.name then (r.name, r) else entry := by
  induction cascade
  case nil => cases h
  case cons entry entries ih =>
    obtain ⟨hentry, hn⟩ := List.nodup_cons.mp hn
    rw [put, List.map_cons]
    split
    case isTrue hr =>
      -- No entry behind has the same name.
      have hrest : ∀ e ∈ entries, e.1 ≠ r.name := fun e he heq =>
        hentry (hr.trans heq.symm ▸ List.mem_map_of_mem he)
      rw [List.map_congr_left fun e he => if_neg (hrest e he), List.map_id']
    case isFalse hr =>
      rw [ih ((List.mem_cons.mp h).resolve_left (Ne.symm hr)) hn]

theorem ofRules_concat (rs : List Rule) (r : Rule) :
    ofRules (rs ++ [r]) = (ofRules rs).put r := by
  simp [ofRules]

theorem firstsOf_ofRules (rs : List Rule) : FirstsOf (rs.map (·.name)) (ofRules rs).names := by
  induction rs using List.reverseRecOn
  case nil => exact .nil
  case append_singleton rs r ih =>
    rw [List.map_append, ofRules_concat, names_put]
    exact ih.concat r.name

theorem lookup_of_mem (hn : cascade.names.Nodup) (h : entry ∈ cascade) :
    cascade.lookup entry.1 = some entry.2 := by
  induction cascade
  case nil => cases h
  case cons head entries ih =>
    obtain ⟨hhead, hn⟩ := List.nodup_cons.mp hn
    rw [List.lookup_cons]
    obtain rfl | h := List.mem_cons.mp h
    case inl => rw [beq_self_eq_true]
    case inr =>
      have hne : (entry.1 == head.1) = false :=
        beq_false_of_ne fun heq => hhead (heq ▸ List.mem_map_of_mem h)
      rw [hne]
      exact ih hn h

end Cascade

namespace RuleSet

variable {rs : RuleSet} {pattern : Option String} {r : Rule} {n : String}

-- All rules of a name match a pattern, or none does.
theorem last?_select (h : matchesPattern? pattern n) :
    last? (rs.select pattern) n = rs.last? n := by
  rw [last?, last?, select, ← List.filter_reverse, List.find?_filter]
  congr 1
  funext s
  by_cases hs : s.name = n
  · simp [hs, h]
  · simp [hs]

theorem exists_of_last? (h : rs.last? n = some r) :
    ∃ front back, rs = front ++ r :: back ∧ r.name = n ∧ ∀ s ∈ back, s.name ≠ n := by
  obtain ⟨hname, back, front, hrs, hback⟩ := List.find?_eq_some_iff_append.mp h
  refine ⟨front.reverse, back.reverse, ?_, by simpa using hname, by simpa using hback⟩
  simpa using congrArg List.reverse hrs

theorem firstsOf_cascade (rs : RuleSet) (pattern : Option String) :
    Cascade.FirstsOf ((rs.select pattern).map (·.name)) (rs.cascade pattern).names :=
  Cascade.firstsOf_ofRules _

theorem matches_of_mem_names (h : n ∈ (rs.cascade pattern).names) : matchesPattern? pattern n := by
  obtain ⟨r, hr, rfl⟩ := List.mem_map.mp (((firstsOf_cascade rs pattern).mem_iff n).mp h)
  exact (List.mem_filter.mp hr).2

theorem last?_of_mem_cascade (h : (n, r) ∈ rs.cascade pattern) : rs.last? n = some r := by
  rw [← last?_select (matches_of_mem_names (List.mem_map_of_mem h))]
  have hlookup := Cascade.lookup_of_mem (firstsOf_cascade rs pattern).nodup h
  rw [cascade, Cascade.ofRules, Cascade.lookup_foldl_put] at hlookup
  simpa using hlookup

-- The names are those of the matching rules, each in the place where it is found first. The rule of
-- a name is the very one that a search for the name comes to, which is the last one in the whole
-- set. Another rule of such a name that is put at the end comes in the place of that one, and
-- nothing else changes.
theorem cascade_consistent (rs : RuleSet) (pattern : Option String) :
    Cascade.FirstsOf ((rs.select pattern).map (·.name)) (rs.cascade pattern).names ∧
    (∀ n r, (n, r) ∈ rs.cascade pattern → rs.last? n = some r ∧
      ∃ front back, rs = front ++ r :: back ∧ r.name = n ∧ ∀ s ∈ back, s.name ≠ n) ∧
    ∀ r : Rule, r.name ∈ (rs.cascade pattern).names →
      RuleSet.cascade (rs.add r none) pattern = (rs.cascade pattern).map fun entry =>
        if entry.1 = r.name then (r.name, r) else entry := by
  refine ⟨firstsOf_cascade rs pattern, fun n r h => ?_, fun r h => ?_⟩
  case refine_1 =>
    have hlast := last?_of_mem_cascade h
    exact ⟨hlast, exists_of_last? hlast⟩
  case refine_2 =>
    have hselect : RuleSet.select (rs.add r none) pattern = rs.select pattern ++ [r] := by
      simp [select, add, matches_of_mem_names h]
    rw [cascade, hselect, Cascade.ofRules_concat]
    exact Cascade.put_of_mem h (firstsOf_cascade rs pattern).nodup

end RuleSet
end Stylesheet
