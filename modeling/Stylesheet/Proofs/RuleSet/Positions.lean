import Mathlib.Data.List.Basic
import Stylesheet.Proofs.RuleSet.Identities
/-!
Operations that find their place in a rule set by identity or by name. Where there is nothing to
find they leave the rules as they are and say so; else what they found gives way, and the other
rules stay in order. Main statement: `RuleSet.operations_confined`.
-/

namespace Stylesheet
namespace RuleSet

/-! ### One rule in the place of others -/

section

variable {isOld : Rule → Bool} {front back : RuleSet} {first new : Rule}

-- Takes out the rules with these identities, and puts one in at the index that the first of them
-- had.
def exchange? (targets : List RuleId) (new : Rule) (rs : RuleSet) : Option RuleSet :=
  (rs.findIdx? (targets.contains ·.id)).map fun index =>
    (rs.filter (!targets.contains ·.id)).insertIdx index new

-- In front of the first rule to take out none is taken out, so that the index is still right.
theorem map_insertIdx_filter (isOld : Rule → Bool) (new : Rule) (rs : RuleSet) :
    (rs.findIdx? isOld).map (fun index => (rs.filter (!isOld ·)).insertIdx index new) =
      if rs.any isOld then some (rs.replaceWhere isOld new) else none := by
  induction rs
  case nil => rfl
  case cons r rs ih =>
    cases hr : isOld r
    case true => simp [List.findIdx?_cons, replaceWhere, hr]
    case false =>
      have hcons : replaceWhere isOld new (r :: rs) = r :: replaceWhere isOld new rs := by
        simp [replaceWhere, hr]
      calc ((r :: rs).findIdx? isOld).map
            (fun index => ((r :: rs).filter (!isOld ·)).insertIdx index new)
        _ = ((rs.findIdx? isOld).map fun index => (rs.filter (!isOld ·)).insertIdx index new).map
            (r :: ·) := by
          simp [List.findIdx?_cons, hr, Function.comp_def]
        _ = (if rs.any isOld then some (replaceWhere isOld new rs) else none).map (r :: ·) := by
          rw [ih]
        _ = _ := by
          rw [hcons, List.any_cons, hr, Bool.false_or]
          split <;> rfl

theorem exchange?_eq (targets : List RuleId) (new : Rule) (rs : RuleSet) :
    rs.exchange? targets new = rs.replace? targets new :=
  map_insertIdx_filter (targets.contains ·.id) new rs

theorem replaceWhere_append (hfront : ∀ r ∈ front, isOld r = false) (hfirst : isOld first) :
    replaceWhere isOld new (front ++ first :: back) = front ++ new :: back.filter (!isOld ·) := by
  have hnot : ∀ r ∈ front, (!isOld r) = true := by simpa using hfront
  rw [replaceWhere, List.takeWhile_append_of_pos hnot, List.dropWhile_append_of_pos hnot]
  simp [hfirst]

end

/-! ### Operations in place -/

section

variable {rs rs' front back : RuleSet} {r new : Rule} {news : List Rule} {id : RuleId}
  {before : Option RuleId} {targets : List RuleId} {pattern : String}

-- Changes the rules if that can be done, and tells what came of it.
def attempt {α : Type} (done failed : α) (work : RuleSet → Option RuleSet) : StateM RuleSet α :=
  modifyGet fun rs =>
    match work rs with
    | some rs' => (done, rs')
    | none => (failed, rs)

-- Gives the identity of the rule.
def addRule (new : Rule) (before : Option RuleId) : StateM RuleSet RuleId :=
  modifyGet fun rs => (new.id, rs.add new before)

-- Tells whether the rule was there.
def spliceRule (id : RuleId) (news : List Rule) : StateM RuleSet Bool :=
  attempt true false (splice? id news)

-- Gives the identity of the new rule if it came in.
def replaceRules (targets : List RuleId) (new : Rule) : StateM RuleSet (Option RuleId) :=
  attempt (some new.id) none (exchange? targets new)

-- Tells how many rules less there are.
def removeRules (pattern : String) : StateM RuleSet Nat :=
  modifyGet fun rs =>
    let left := rs.removeMatching pattern
    (rs.length - left.length, left)

theorem run_attempt_of_none {α : Type} {done failed : α} {work : RuleSet → Option RuleSet}
    (h : work rs = none) : (attempt done failed work).run rs = (failed, rs) := by
  change (match work rs with | some rs' => (done, rs') | none => (failed, rs)) = _
  rw [h]

theorem run_attempt_of_some {α : Type} {done failed : α} {work : RuleSet → Option RuleSet}
    (h : work rs = some rs') : (attempt done failed work).run rs = (done, rs') := by
  change (match work rs with | some rs' => (done, rs') | none => (failed, rs)) = _
  rw [h]

theorem addresses_append (h : (ids (front ++ r :: back)).Nodup) :
    Addresses (front ++ r :: back) r front.length :=
  addresses_of_nodup h (by simp)

theorem run_addRule_of_not_mem (h : ∀ id ∈ ids rs, before ≠ some id) :
    (addRule new before).run rs = (new.id, rs ++ [new]) := by
  have hnone : before.bind rs.position? = none := by
    cases before
    case none => rfl
    case some id => exact position?_of_not_mem fun hm => h id hm rfl
  change (new.id, rs.add new before) = _
  rw [add, hnone]

theorem run_addRule_append (h : (ids (front ++ r :: back)).Nodup) :
    (addRule new (some r.id)).run (front ++ r :: back) = (new.id, front ++ new :: r :: back) := by
  change (new.id, add new (some r.id) (front ++ r :: back)) = _
  rw [(addresses_append h).add]
  exact congrArg _ (List.modifyTailIdx_add (List.cons new) 0 front (r :: back))

theorem run_spliceRule_of_not_mem (h : id ∉ ids rs) :
    (spliceRule id news).run rs = (false, rs) :=
  run_attempt_of_none (by rw [splice?, position?_of_not_mem h, Option.map_none])

theorem run_spliceRule_append (h : (ids (front ++ r :: back)).Nodup) :
    (spliceRule r.id news).run (front ++ r :: back) = (true, front ++ news ++ back) := by
  have hsplice := (addresses_append h).splice? news
  rw [List.take_left, ← List.drop_drop, List.drop_left] at hsplice
  exact run_attempt_of_some hsplice

theorem run_replaceRules_of_not_mem (h : ∀ id ∈ targets, id ∉ ids rs) :
    (replaceRules targets new).run rs = (none, rs) := by
  have hany : rs.any (targets.contains ·.id) = false := by
    rw [List.any_eq_false]
    exact fun r hr hid => h _ (List.contains_iff_mem.mp hid) (List.mem_map_of_mem hr)
  refine run_attempt_of_none ?_
  rw [exchange?_eq, replace?, hany]
  rfl

theorem run_replaceRules_append (hfront : ∀ s ∈ front, s.id ∉ targets) (hr : r.id ∈ targets) :
    (replaceRules targets new).run (front ++ r :: back) =
      (some new.id, front ++ new :: back.filter fun s => !targets.contains s.id) := by
  have hany : (front ++ r :: back).any (targets.contains ·.id) := by simp [hr]
  refine run_attempt_of_some ?_
  rw [exchange?_eq, replace?, if_pos hany]
  exact congrArg some (replaceWhere_append (by simpa using hfront) (List.contains_iff_mem.mpr hr))

-- The rules that are left are those that do not have the identity of a rule that matches.
theorem run_removeRules (h : (ids rs).Nodup) (pattern : String) :
    (removeRules pattern).run rs = ((rs.select (some pattern)).length,
      rs.filter fun r => !(ids (rs.select (some pattern))).contains r.id) := by
  have hleft : rs.removeMatching pattern =
      rs.filter fun r => !(ids (rs.select (some pattern))).contains r.id :=
    List.filter_congr fun r hr => by rw [select, contains_ids_filter h hr]; rfl
  have hlength := rs.length_eq_length_filter_add fun r => matchesPattern pattern r.name
  have hcount : rs.length - (rs.removeMatching pattern).length =
      (rs.select (some pattern)).length := Nat.sub_eq_of_eq_add hlength
  change (rs.length - (rs.removeMatching pattern).length, rs.removeMatching pattern) = _
  rw [hcount, hleft]

end

-- A rule that is added is directly in front of the one it is to precede, or behind all others; a
-- rule that is spliced gives way to new ones where it is; the rules to replace give way to one
-- where the first of them is, though its index is older than the removal of the others; and what a
-- pattern removes is what it selects. Rules that nothing of this is about stay as they are, and
-- what finds no rule leaves all of them.
theorem operations_confined {rs : RuleSet} (h : (ids rs).Nodup) :
    (∀ new before, (∀ id ∈ ids rs, before ≠ some id) →
      (addRule new before).run rs = (new.id, rs ++ [new])) ∧
    (∀ new front r back, rs = front ++ r :: back →
      (addRule new (some r.id)).run rs = (new.id, front ++ new :: r :: back)) ∧
    (∀ id news, id ∉ ids rs → (spliceRule id news).run rs = (false, rs)) ∧
    (∀ news front r back, rs = front ++ r :: back →
      (spliceRule r.id news).run rs = (true, front ++ news ++ back)) ∧
    (∀ targets new, rs.exchange? targets new = rs.replace? targets new) ∧
    (∀ targets new, (∀ id ∈ targets, id ∉ ids rs) →
      (replaceRules targets new).run rs = (none, rs)) ∧
    (∀ targets new front r back, rs = front ++ r :: back → (∀ s ∈ front, s.id ∉ targets) →
      r.id ∈ targets → (replaceRules targets new).run rs =
        (some new.id, front ++ new :: back.filter fun s => !targets.contains s.id)) ∧
    (∀ pattern, (removeRules pattern).run rs = ((rs.select (some pattern)).length,
      rs.filter fun r => !(ids (rs.select (some pattern))).contains r.id)) ∧
    ∀ pattern, rs.select (some pattern) = [] → (removeRules pattern).run rs = (0, rs) := by
  refine ⟨fun _ _ => run_addRule_of_not_mem, ?_, fun _ _ => run_spliceRule_of_not_mem, ?_,
    fun _ _ => exchange?_eq _ _ rs, fun _ _ => run_replaceRules_of_not_mem, ?_,
    run_removeRules h, fun pattern hnone => ?_⟩
  case refine_1 =>
    rintro new front r back rfl
    exact run_addRule_append h
  case refine_2 =>
    rintro news front r back rfl
    exact run_spliceRule_append h
  case refine_3 =>
    rintro targets new front r back rfl hfront hr
    exact run_replaceRules_append hfront hr
  case refine_4 =>
    rw [run_removeRules h, hnone]
    simp [ids]

-- A name that is given twice, and identities in no order.
def twiceColored : RuleSet :=
  [{ name := "color", value := .keyword "red", id := 4 },
   { name := "top", value := .keyword "auto", id := 0 },
   { name := "color", value := .keyword "blue", id := 2 },
   { name := "left", value := .keyword "auto", id := 1 }]

theorem operations_confined_twiceColored : (ids twiceColored).Nodup ∧
    ∃ red top blue left : Rule, twiceColored = [red, top, blue, left] ∧
      ∀ new : Rule,
        (addRule new (some 2)).run twiceColored = (new.id, [red, top, new, blue, left]) ∧
        (spliceRule 0 [new, new]).run twiceColored = (true, [red, new, new, blue, left]) ∧
        (replaceRules [1, 9, 0, 1] new).run twiceColored = (some new.id, [red, new, blue]) ∧
        (removeRules "color").run twiceColored = (2, [top, left]) := by
  have hn : (ids twiceColored).Nodup := by decide
  have ⟨_, hadd, _, hsplice, _, _, hreplace, hremove, _⟩ := operations_confined hn
  refine ⟨hn, _, _, _, _, rfl, fun new => ⟨?_, ?_, ?_, hremove "color"⟩⟩
  case refine_1 => exact hadd new [_, _] _ [_] rfl
  case refine_2 => exact hsplice [new, new] [_] _ [_, _] rfl
  case refine_3 =>
    refine hreplace _ new [_] _ [_, _] rfl ?_ ?_
    · simp
    · simp

end RuleSet
end Stylesheet
