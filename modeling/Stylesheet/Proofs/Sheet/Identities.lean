import Stylesheet.Proofs.RuleSet.Identities
import Stylesheet.Sheet.Edit
/-!
Identities over whole editing runs. A sheet that was read gives each rule an identity of its own,
and whatever is done to its rule sets and blocks, no two of its rules ever have the same, nor does a
new rule have one that was given out before. Main statement: `Sheet.identities_reach`.
-/

namespace Stylesheet

open RuleSet (Renews IsRenewal Distinct Addresses)

variable {α : Type}

namespace Node

theorem eq_of_getElem?_singleton {β : Type} {a b : β} {i : Nat} (h : [a][i]? = some b) :
    i = 0 ∧ a = b := by
  cases i <;> simp_all

mutual

-- Replacing a rule set leaves the others where they are.
theorem ruleSets_setRuleSet {n : Node α} {i : Nat} {rs : List α} (h : n.ruleSets[i]? = some rs) :
    ∃ front back, n.ruleSets = front ++ rs :: back ∧ front.length = i ∧
      ∀ new, (n.setRuleSet i new).ruleSets = front ++ new :: back := by
  match n with
  | block b =>
    obtain ⟨rfl, rfl⟩ := eq_of_getElem?_singleton h
    exact ⟨[], [], rfl, rfl, fun new => rfl⟩
  | atSet name arguments rules =>
    obtain ⟨rfl, rfl⟩ := eq_of_getElem?_singleton h
    exact ⟨[], [], rfl, rfl, fun new => rfl⟩
  | atBlock name arguments contents => exact ruleSetsAll_setRuleSetAll h
  | atStatement name arguments => cases h

theorem ruleSetsAll_setRuleSetAll {ns : List (Node α)} {i : Nat} {rs : List α}
    (h : (ruleSetsAll ns)[i]? = some rs) :
    ∃ front back, ruleSetsAll ns = front ++ rs :: back ∧ front.length = i ∧
      ∀ new, ruleSetsAll (setRuleSetAll i new ns) = front ++ new :: back := by
  match ns with
  | [] => cases h
  | n :: ns =>
    rw [ruleSetsAll] at h
    by_cases hi : i < n.ruleSets.length
    case pos =>
      rw [List.getElem?_append_left hi] at h
      obtain ⟨front, back, hn, hlength, hset⟩ := ruleSets_setRuleSet h
      refine ⟨front, back ++ ruleSetsAll ns, ?_, hlength, fun new => ?_⟩
      · simp [ruleSetsAll, hn]
      · simp [setRuleSetAll, hi, ruleSetsAll, hset]
    case neg =>
      rw [List.getElem?_append_right (Nat.not_lt.mp hi)] at h
      obtain ⟨front, back, hns, hlength, hset⟩ := ruleSetsAll_setRuleSetAll h
      refine ⟨n.ruleSets ++ front, back, ?_, ?_, fun new => ?_⟩
      · simp [ruleSetsAll, hns]
      · rw [List.length_append, hlength]
        exact Nat.add_sub_cancel' (Nat.not_lt.mp hi)
      · simp [setRuleSetAll, hi, ruleSetsAll, hset]

end

mutual

-- A block is replaced with its rule set.
theorem ruleSets_setBlock {n : Node α} {i : Nat} {b : Block α} (h : n.blocks[i]? = some b) :
    ∃ front back, n.ruleSets = front ++ b.rules :: back ∧
      ∀ new : Block α, (n.setBlock i new).ruleSets = front ++ new.rules :: back := by
  match n with
  | block b =>
    obtain ⟨rfl, rfl⟩ := eq_of_getElem?_singleton h
    exact ⟨[], [], rfl, fun new => rfl⟩
  | atBlock name arguments contents => exact ruleSetsAll_setBlockAll h
  | atSet name arguments rules => cases h
  | atStatement name arguments => cases h

theorem ruleSetsAll_setBlockAll {ns : List (Node α)} {i : Nat} {b : Block α}
    (h : (blocksAll ns)[i]? = some b) :
    ∃ front back, ruleSetsAll ns = front ++ b.rules :: back ∧
      ∀ new : Block α, ruleSetsAll (setBlockAll i new ns) = front ++ new.rules :: back := by
  match ns with
  | [] => cases h
  | n :: ns =>
    rw [blocksAll] at h
    by_cases hi : i < n.blocks.length
    case pos =>
      rw [List.getElem?_append_left hi] at h
      obtain ⟨front, back, hn, hset⟩ := ruleSets_setBlock h
      refine ⟨front, back ++ ruleSetsAll ns, ?_, fun new => ?_⟩
      · simp [ruleSetsAll, hn]
      · simp [setBlockAll, hi, ruleSetsAll, hset]
    case neg =>
      rw [List.getElem?_append_right (Nat.not_lt.mp hi)] at h
      obtain ⟨front, back, hns, hset⟩ := ruleSetsAll_setBlockAll h
      refine ⟨n.ruleSets ++ front, back, ?_, fun new => ?_⟩
      · simp [ruleSetsAll, hns]
      · simp [setBlockAll, hi, ruleSetsAll, hset]

end

-- The rules of a node, those in at-rules included.
def rules (n : Node Rule) : List Rule :=
  n.ruleSets.flatten

def rulesAll (ns : List (Node Rule)) : List Rule :=
  (ruleSetsAll ns).flatten

theorem rulesAll_cons (n : Node Rule) (ns : List (Node Rule)) :
    rulesAll (n :: ns) = n.rules ++ rulesAll ns :=
  List.flatten_append

theorem rules_block (b : Block Rule) : (block b).rules = b.rules :=
  List.append_nil _

theorem rules_atSet (name arguments : String) (rs : List Rule) :
    (atSet name arguments rs).rules = rs :=
  List.append_nil _

mutual

theorem renews_mapBlocks {f : RuleSet → Fresh RuleSet} (hf : IsRenewal f) (node : Node Rule)
    (n : Nat) : Renews (fun _ => []) n ((node.mapBlocks f).run n).2 node.rules
      ((node.mapBlocks f).run n).1.rules := by
  match node with
  | block b =>
    have hrules := rules_block { b with rules := ((f b.rules).run n).1 }
    rw [rules_block]
    exact hrules ▸ hf b.rules n
  | atBlock name arguments contents => exact renews_mapBlocksAll hf contents n
  | atSet name arguments rules => exact .refl
  | atStatement name arguments => exact .refl

theorem renews_mapBlocksAll {f : RuleSet → Fresh RuleSet} (hf : IsRenewal f)
    (ns : List (Node Rule)) (n : Nat) : Renews (fun _ => []) n ((mapBlocksAll f ns).run n).2
      (rulesAll ns) (rulesAll ((mapBlocksAll f ns).run n).1) := by
  match ns with
  | [] => exact .refl
  | node :: ns =>
    have hnode := renews_mapBlocks hf node n
    have hrest := renews_mapBlocksAll hf ns ((node.mapBlocks f).run n).2
    have hcons := rulesAll_cons ((node.mapBlocks f).run n).1
      ((mapBlocksAll f ns).run ((node.mapBlocks f).run n).2).1
    rw [rulesAll_cons]
    exact hcons ▸ hnode.append hrest

end

mutual

theorem renews_identify (node : Node Declaration) (n : Nat) :
    Renews (fun _ => []) n (node.identify.run n).2 [] (node.identify.run n).1.rules := by
  match node with
  | block b =>
    have hrules := rules_block ⟨b.selectors, ((Rule.freshAll b.rules).run n).1, b.line⟩
    exact hrules ▸ .freshAll b.rules n
  | atSet name arguments rules =>
    have hrules := rules_atSet name arguments ((Rule.freshAll rules).run n).1
    exact hrules ▸ .freshAll rules n
  | atBlock name arguments contents => exact renews_identifyAll contents n
  | atStatement name arguments => exact .refl

theorem renews_identifyAll (ns : List (Node Declaration)) (n : Nat) :
    Renews (fun _ => []) n ((identifyAll ns).run n).2 [] (rulesAll ((identifyAll ns).run n).1) := by
  match ns with
  | [] => exact .refl
  | node :: ns =>
    have hnode := renews_identify node n
    have hrest := renews_identifyAll ns (node.identify.run n).2
    have hcons := rulesAll_cons (node.identify.run n).1
      ((identifyAll ns).run (node.identify.run n).2).1
    exact hcons ▸ hnode.append hrest

end

end Node

namespace Sheet

def rules (sheet : Sheet Rule) : List Rule :=
  sheet.ruleSets.flatten

-- What can be done to a sheet: something to a rule set or a block of it, or to all blocks.
inductive Operation where
  | onSet (i : Nat) (op : RuleSet.Operation)
  | onBlock (i : Nat) (op : RuleSet.Operation)
  | expandAll
  | createAll

namespace Operation

-- Without a rule set or block of that index nothing is done.
def run : Operation → Sheet Rule → Fresh (Sheet Rule)
  | onSet i op, sheet =>
    match sheet.ruleSets[i]? with
    | some rs => return sheet.setRuleSet i (← op.run rs)
    | none => return sheet
  | onBlock i op, sheet =>
    match sheet.blocks[i]? with
    | some b => return sheet.setBlock i { b with rules := ← op.run b.rules }
    | none => return sheet
  | expandAll, sheet => sheet.expandAll
  | createAll, sheet => sheet.createAll

def changes : Operation → Changes
  | onSet _ op | onBlock _ op => op.changes
  | expandAll | createAll => fun _ => []

def runAll : List Operation → Sheet Rule → Fresh (Sheet Rule)
  | [], sheet => return sheet
  | op :: ops, sheet => do runAll ops (← op.run sheet)

-- What is done to the declaration of a rule in a whole run, in order.
def changesOf (ops : List Operation) : Changes :=
  fun id => ops.flatMap fun op => op.changes id

-- One rule set changes, and the others stay.
theorem renews_of_frame {changes : Changes} {n n' : Nat} {sheet sheet' : Sheet Rule}
    {front back : List RuleSet} {rs rs' : RuleSet} (hs : sheet.ruleSets = front ++ rs :: back)
    (hs' : sheet'.ruleSets = front ++ rs' :: back) (h : Renews changes n n' rs rs') :
    Renews changes n n' sheet.rules sheet'.rules := by
  simp only [rules, hs, hs', List.flatten_append, List.flatten_cons]
  exact Renews.refl.append (h.append .refl)

theorem renews (op : Operation) (sheet : Sheet Rule) (n : Nat) :
    Renews op.changes n ((op.run sheet).run n).2 sheet.rules ((op.run sheet).run n).1.rules := by
  cases op
  case onSet i op =>
    simp only [run]
    split
    case h_1 rs h =>
      obtain ⟨front, back, hs, -, hset⟩ := Node.ruleSetsAll_setRuleSetAll h
      exact renews_of_frame hs (hset _) (op.renews rs n)
    case h_2 => exact .refl
  case onBlock i op =>
    simp only [run]
    split
    case h_1 b h =>
      obtain ⟨front, back, hs, hset⟩ := Node.ruleSetsAll_setBlockAll h
      exact renews_of_frame hs (hset _) (op.renews b.rules n)
    case h_2 => exact .refl
  case expandAll => exact Node.renews_mapBlocksAll (RuleSet.Family.isRenewal_expand .all) sheet n
  case createAll => exact Node.renews_mapBlocksAll (RuleSet.Family.isRenewal_create .all) sheet n

theorem renews_runAll (ops : List Operation) (sheet : Sheet Rule) (n : Nat) :
    Renews (changesOf ops) n ((runAll ops sheet).run n).2 sheet.rules
      ((runAll ops sheet).run n).1.rules := by
  induction ops generalizing sheet n
  case nil => exact .refl
  case cons op ops ih => exact (op.renews sheet n).trans (ih _ _)

theorem runAll_append (before after : List Operation) (sheet : Sheet Rule) (n : RuleId) :
    (runAll (before ++ after) sheet).run n =
      (runAll after ((runAll before sheet).run n).1).run ((runAll before sheet).run n).2 := by
  induction before generalizing sheet n
  case nil => rfl
  case cons op ops ih => exact ih ((op.run sheet).run n).1 ((op.run sheet).run n).2

end Operation

/-! ### Editing runs -/

-- A sheet that was read and edited, and the next identity to give out.
def reach (document : Sheet Declaration) (first : RuleId) (ops : List Operation) :
    Sheet Rule × RuleId :=
  (document.identify >>= Operation.runAll ops).run first

-- What goes by the identity of a rule comes to that rule in the rule set that it is in, and to no
-- rule in any other.
def IsAddressed (sheet : Sheet Rule) : Prop :=
  ∀ (i : Nat) (rs : RuleSet), sheet.ruleSets[i]? = some rs →
    ∀ (index : Nat) (r : Rule), rs[index]? = some r → Addresses rs r index ∧
      ∀ (j : Nat) (rs' : RuleSet), j ≠ i → sheet.ruleSets[j]? = some rs' →
        rs'.find? r.id = none ∧ rs'.position? r.id = none ∧ rs'.remove r.id = rs'

theorem isAddressed_of_nodup {sheet : Sheet Rule} (h : (RuleSet.ids sheet.rules).Nodup) :
    sheet.IsAddressed := by
  rw [RuleSet.ids, rules, List.map_flatten, List.Nodup, List.pairwise_flatten, List.pairwise_map] at h
  obtain ⟨hsets, hpairs⟩ := h
  intro i rs hi index r hr
  have hnodup : (RuleSet.ids rs).Nodup := hsets _ (List.mem_map_of_mem (List.mem_of_getElem? hi))
  refine ⟨RuleSet.addresses_of_nodup hnodup hr, fun j rs' hj hrs' => ?_⟩
  have hmem : r.id ∈ RuleSet.ids rs := List.mem_map_of_mem (List.mem_of_getElem? hr)
  have hnot : r.id ∉ RuleSet.ids rs' := by
    intro hmem'
    obtain ⟨hlt, rfl⟩ := List.getElem?_eq_some_iff.mp hi
    obtain ⟨hlt', rfl⟩ := List.getElem?_eq_some_iff.mp hrs'
    rw [List.pairwise_iff_getElem] at hpairs
    obtain h | h := Nat.lt_or_gt_of_ne hj
    · exact hpairs j i hlt' hlt h _ hmem' _ hmem rfl
    · exact hpairs i j hlt hlt' h _ hmem _ hmem' rfl
  exact ⟨RuleSet.find?_of_not_mem hnot, RuleSet.position?_of_not_mem hnot,
    RuleSet.remove_of_not_mem hnot⟩

theorem reach_append (document : Sheet Declaration) (first : RuleId)
    (before after : List Operation) : reach document first (before ++ after) =
      (Operation.runAll after (reach document first before).1).run
        (reach document first before).2 :=
  Operation.runAll_append before after _ _

theorem renews_reach (document : Sheet Declaration) (first : RuleId) (ops : List Operation) :
    Renews (Operation.changesOf ops) first (reach document first ops).2 []
      (reach document first ops).1.rules :=
  (Node.renews_identifyAll document first).trans (Operation.renews_runAll ops _ _)

theorem distinct_reach (document : Sheet Declaration) (first : RuleId) (ops : List Operation) :
    Distinct (reach document first ops).2 (reach document first ops).1.rules :=
  (renews_reach document first ops).distinct ⟨List.nodup_nil, fun _ h => absurd h List.not_mem_nil⟩

-- However a sheet that was read is edited, its rules have distinct identities, by which each of them
-- is found. Every rule is one that was there at any earlier time, but for what was done to its
-- declaration by its identity, or it has an identity that no rule had until then.
theorem identities_reach (document : Sheet Declaration) (first : RuleId)
    (before after : List Operation) :
    let earlier := reach document first before
    let later := reach document first (before ++ after)
    (RuleSet.ids later.1.rules).Nodup ∧ later.1.IsAddressed ∧
      (∀ r ∈ later.1.rules, first ≤ r.id ∧ r.id < later.2) ∧
      (∀ past, past <+: before → ∀ r ∈ (reach document first past).1.rules, r.id < earlier.2) ∧
      ∀ r ∈ later.1.rules, earlier.2 ≤ r.id ∨ ∃ r₀ ∈ earlier.1.rules,
        ∃ fs : List (Declaration → Declaration),
          fs.Sublist (Operation.changesOf after r₀.id) ∧ r = fs.foldl Rule.edit r₀ := by
  intro earlier later
  have hdistinct := distinct_reach document first (before ++ after)
  have hafter : Renews (Operation.changesOf after) earlier.2 later.2 earlier.1.rules
      later.1.rules := by
    have := Operation.renews_runAll after earlier.1 earlier.2
    rwa [← reach_append] at this
  refine ⟨hdistinct.nodup, isAddressed_of_nodup hdistinct.nodup, fun r hr => ?_,
    fun past hpast r hr => ?_, fun r hr => (hafter.follows r hr).imp_left And.left⟩
  · obtain hnew | ⟨r₀, hr₀, -⟩ := (renews_reach document first (before ++ after)).follows r hr
    · exact hnew
    · cases hr₀
  · obtain ⟨more, rfl⟩ := hpast
    have hle := (Operation.renews_runAll more (reach document first past).1
      (reach document first past).2).le
    rw [← reach_append] at hle
    exact Nat.lt_of_lt_of_le ((distinct_reach document first past).lt r hr) hle

end Sheet
end Stylesheet
