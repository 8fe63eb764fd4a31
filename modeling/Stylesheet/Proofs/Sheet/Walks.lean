import Stylesheet.Proofs.Sheet.Landmarks
import Stylesheet.Sheet.Edit
/-!
Walks through a sheet that change what they come to. A facet is what some landmarks have one of,
such as a rule set. A walk that comes to the facets in a sheet comes to those of its landmarks, in
order, and to change the facet with some index is to change one landmark. Main statement:
`Sheet.walks_confined`.
-/

namespace Stylesheet

variable {α β : Type} {m : Type → Type}

namespace Landmark

-- What some landmarks have one of, which can be replaced.
structure Facet (α β : Type) where
  get? : Landmark α → Option β
  put : β → Landmark α → Landmark α
  get?_put : ∀ b l, get? (put b l) = (get? l).map fun _ => b
  put_put : ∀ b c l, put c (put b l) = put c l
  put_get? : ∀ l, ∀ b ∈ get? l, put b l = l

namespace Facet

-- The declarations of a landmark, be it a block or an at-rule.
def rules : Facet α (List α) where
  get? := rules?
  put
    | rules, .block b => .block { b with rules }
    | rules, .atSet name arguments _ => .atSet name arguments rules
    | _, l => l
  get?_put b l := by cases l <;> rfl
  put_put b c l := by cases l <;> rfl
  put_get? l b h := by cases l <;> cases h <;> rfl

-- A whole block, its selectors and its line included.
def block : Facet α (Block α) where
  get? := block?
  put
    | b, .block _ => .block b
    | _, l => l
  get?_put b l := by cases l <;> rfl
  put_put b c l := by cases l <;> rfl
  put_get? l b h := by cases l <;> cases h <;> rfl

-- The declarations of a block; those of an at-rule are none of it.
def blockRules : Facet α (List α) where
  get? l := l.block?.map (·.rules)
  put
    | rules, .block b => .block { b with rules }
    | _, l => l
  get?_put b l := by cases l <;> rfl
  put_put b c l := by cases l <;> rfl
  put_get? l b h := by cases l <;> cases h <;> rfl

variable (facet : Facet α β)

def all (ls : List (Landmark α)) : List β :=
  ls.filterMap facet.get?

-- What it is to change the facet with index `i` and nothing else: the facets are as before but for
-- that one, and the landmarks are as before but for their facets.
structure EditsAt (i : Nat) (f : β → β) (ls ls' : List (Landmark α)) : Prop where
  all : facet.all ls' = (facet.all ls).modify i f
  others : ∀ b, ls'.map (facet.put b) = ls.map (facet.put b)

-- The landmarks with the facet of index `i` changed.
def editAt (f : β → β) : Nat → List (Landmark α) → List (Landmark α)
  | _, [] => []
  | i, l :: ls =>
    match facet.get? l, i with
    | none, i => l :: editAt f i ls
    | some b, 0 => facet.put (f b) l :: ls
    | some _, i + 1 => l :: editAt f i ls

-- Comes to the facet of a landmark, if it has one, for what is put in its place.
def visit [Monad m] (f : β → m β) (l : Landmark α) : m (Landmark α) :=
  match facet.get? l with
  | some b => return facet.put (← f b) l
  | none => return l

section

variable {facet} {f : β → β} {b : β} {i k : Nat} {l : Landmark α} {ls ms : List (Landmark α)}

theorem all_cons_of_none (h : facet.get? l = none) : facet.all (l :: ls) = facet.all ls :=
  List.filterMap_cons_none h

theorem all_cons_of_some (h : facet.get? l = some b) :
    facet.all (l :: ls) = b :: facet.all ls :=
  List.filterMap_cons_some h

theorem editAt_cons_of_none (h : facet.get? l = none) :
    facet.editAt f i (l :: ls) = l :: facet.editAt f i ls := by
  simp [editAt, h]

theorem editAt_cons_zero (h : facet.get? l = some b) :
    facet.editAt f 0 (l :: ls) = facet.put (f b) l :: ls := by
  simp [editAt, h]

theorem editAt_cons_succ (h : facet.get? l = some b) :
    facet.editAt f (i + 1) (l :: ls) = l :: facet.editAt f i ls := by
  simp [editAt, h]

theorem editsAt_editAt : facet.EditsAt i f ls (facet.editAt f i ls) := by
  induction ls generalizing i
  case nil => exact ⟨by simp [editAt, Facet.all], fun b => rfl⟩
  case cons l ls ih =>
    cases h : facet.get? l
    case none =>
      rw [editAt_cons_of_none h]
      obtain ⟨hall, hothers⟩ := @ih i
      exact ⟨by rw [all_cons_of_none h, all_cons_of_none h, hall], fun c => by simp [hothers]⟩
    case some b =>
      cases i
      case zero =>
        have hput : facet.get? (facet.put (f b) l) = some (f b) := by rw [facet.get?_put, h]; rfl
        rw [editAt_cons_zero h]
        refine ⟨?_, fun c => by simp [facet.put_put]⟩
        rw [all_cons_of_some hput, all_cons_of_some h, List.modify_zero_cons]
      case succ i =>
        rw [editAt_cons_succ h]
        obtain ⟨hall, hothers⟩ := @ih i
        refine ⟨?_, fun c => by simp [hothers]⟩
        rw [all_cons_of_some h, all_cons_of_some h, hall, List.modify_succ_cons]

theorem editAt_append : facet.editAt f i (ls ++ ms) =
    if i < (facet.all ls).length then facet.editAt f i ls ++ ms
    else ls ++ facet.editAt f (i - (facet.all ls).length) ms := by
  induction ls generalizing i
  case nil => rfl
  case cons l ls ih =>
    cases h : facet.get? l
    case none =>
      rw [List.cons_append, editAt_cons_of_none h, ih, all_cons_of_none h, editAt_cons_of_none h]
      split <;> rfl
    case some b =>
      rw [all_cons_of_some h, List.length_cons]
      cases i
      case zero =>
        rw [List.cons_append, editAt_cons_zero h, editAt_cons_zero h, if_pos (Nat.succ_pos _)]
        rfl
      case succ i =>
        rw [List.cons_append, editAt_cons_succ h, ih, editAt_cons_succ h, Nat.add_sub_add_right]
        simp only [Nat.add_lt_add_iff_right]
        split <;> rfl

theorem editAt_of_le (h : (facet.all ls).length ≤ i) : facet.editAt f i ls = ls := by
  have := @editAt_append _ _ facet f i ls []
  simpa [Nat.not_lt.mpr h, editAt] using this

theorem editAt_enclosed {name arguments : String} (h : facet.get? (.enter name arguments) = none)
    (h' : facet.get? .leave = none) :
    facet.editAt f i (.enter name arguments :: (ls ++ [.leave])) =
      .enter name arguments :: (facet.editAt f i ls ++ [.leave]) := by
  rw [editAt_cons_of_none h, editAt_append]
  split
  case isTrue => rfl
  case isFalse hi =>
    rw [editAt_cons_of_none h', editAt_of_le (Nat.not_lt.mp hi)]
    rfl

-- To change a facet by a function is to replace it by the image of what it is.
theorem editAt_eq_match : facet.editAt f i ls =
    match (facet.all ls)[i]? with
    | some b => facet.editAt (fun _ => f b) i ls
    | none => ls := by
  induction ls generalizing i
  case nil => rfl
  case cons l ls ih =>
    cases hl : facet.get? l
    case none =>
      rw [editAt_cons_of_none hl, ih, all_cons_of_none hl]
      cases (facet.all ls)[i]?
      case none => rfl
      case some b => exact (editAt_cons_of_none hl).symm
    case some b =>
      rw [all_cons_of_some hl]
      cases i
      case zero =>
        rw [editAt_cons_zero hl, List.getElem?_cons_zero]
        exact (editAt_cons_zero (f := fun _ => f b) hl).symm
      case succ i =>
        rw [editAt_cons_succ hl, ih, List.getElem?_cons_succ]
        cases (facet.all ls)[i]?
        case none => rfl
        case some b => exact (editAt_cons_succ hl).symm

end

/-! ### Counting visits -/

-- Counts what it comes to, and changes what has index `i`.
def onlyAt (i : Nat) (f : β → β) (b : β) : StateM Nat β :=
  modifyGet fun k => (if k = i then f b else b, k + 1)

section

variable {facet} {f : β → β} {b : β} {i k : Nat} {l : Landmark α} {ls : List (Landmark α)}

theorem run_visit_of_none (h : facet.get? l = none) :
    (facet.visit (onlyAt i f) l).run k = (l, k) := by
  rw [visit, h]
  rfl

theorem run_visit_of_some (h : facet.get? l = some b) : (facet.visit (onlyAt i f) l).run k =
    (facet.put (if k = i then f b else b) l, k + 1) := by
  rw [visit, h]
  rfl

theorem run_mapM_cons (g : Landmark α → StateM Nat (Landmark α)) :
    (((l :: ls).mapM g).run k).1 = ((g l).run k).1 :: ((ls.mapM g).run ((g l).run k).2).1 := by
  rw [List.mapM_cons]
  rfl

theorem run_mapM_visit_of_lt (h : i < k) :
    ((ls.mapM (facet.visit (onlyAt i f))).run k).1 = ls := by
  induction ls generalizing k
  case nil => rfl
  case cons l ls ih =>
    rw [run_mapM_cons]
    cases hl : facet.get? l
    case none => rw [run_visit_of_none hl, ih h]
    case some b =>
      rw [run_visit_of_some hl, ih (Nat.lt_succ_of_lt h), if_neg (Nat.ne_of_gt h),
        facet.put_get? l b hl]

theorem run_mapM_visit :
    ((ls.mapM (facet.visit (onlyAt (k + i) f))).run k).1 = facet.editAt f i ls := by
  induction ls generalizing i k
  case nil => rfl
  case cons l ls ih =>
    rw [run_mapM_cons]
    cases hl : facet.get? l
    case none => rw [run_visit_of_none hl, ih, editAt_cons_of_none hl]
    case some b =>
      rw [run_visit_of_some hl]
      cases i
      case zero =>
        rw [editAt_cons_zero hl, if_pos (Nat.add_zero k).symm]
        exact congrArg _ (run_mapM_visit_of_lt (Nat.lt_succ_self k))
      case succ i =>
        rw [← Nat.succ_add_eq_add_succ, ih, editAt_cons_succ hl, if_neg (by omega),
          facet.put_get? l b hl]

theorem landmarks_of_counting {σ : Type} {landmarks : σ → List (Landmark α)} {walk : StateM Nat σ}
    (h : landmarks <$> walk = ls.mapM (facet.visit (onlyAt i f))) :
    landmarks (walk.run 0).1 = facet.editAt f i ls := by
  have h := congrArg (fun walk => (StateT.run walk 0).1) h
  rw [← run_mapM_visit (k := 0), Nat.zero_add]
  exact h

end

end Facet
end Landmark

open Landmark (Facet)
open Landmark.Facet (onlyAt)

-- Comes to a landmark with one action for blocks and one for the declarations of at-rules.
def Landmark.visit [Monad m] (onBlock : Block α → m (Block α)) (onRules : List α → m (List α)) :
    Landmark α → m (Landmark α)
  | block b => return block (← onBlock b)
  | atSet name arguments rules => return atSet name arguments (← onRules rules)
  | l => return l

namespace Node

section

variable [Monad m] (onBlock : Block α → m (Block α)) (onRules : List α → m (List α))

mutual

-- Comes to the blocks in a node and to the declarations of its at-rules, one after the other, each
-- for what its action puts in its place.
def visit : Node α → m (Node α)
  | block b => return block (← onBlock b)
  | atSet name arguments rules => return atSet name arguments (← onRules rules)
  | atBlock name arguments contents => return atBlock name arguments (← visitAll contents)
  | atStatement name arguments => return atStatement name arguments

def visitAll : List (Node α) → m (List (Node α))
  | [] => return []
  | n :: ns => return (← n.visit) :: (← visitAll ns)

end

variable [LawfulMonad m]

mutual

theorem landmarks_visit (n : Node α) : landmarks <$> n.visit onBlock onRules =
    n.landmarks.mapM (Landmark.visit onBlock onRules) := by
  match n with
  | block b => simp [visit, landmarks, Landmark.visit]
  | atSet name arguments rules => simp [visit, landmarks, Landmark.visit]
  | atBlock name arguments contents =>
    have h := landmarksAll_visitAll contents
    simp only [visit, landmarks, List.mapM_cons, List.mapM_append, ← h, Landmark.visit]
    simp [landmarks]
  | atStatement name arguments => simp [visit, landmarks, Landmark.visit]

theorem landmarksAll_visitAll (ns : List (Node α)) : landmarksAll <$> visitAll onBlock onRules ns =
    (landmarksAll ns).mapM (Landmark.visit onBlock onRules) := by
  match ns with
  | [] => simp [visitAll, landmarksAll]
  | n :: ns =>
    have hn := landmarks_visit n
    have hns := landmarksAll_visitAll ns
    simp [visitAll, landmarksAll, ← hn, ← hns]

end

end

mutual

theorem landmarks_setRuleSet (i : Nat) (new : List α) (n : Node α) :
    (n.setRuleSet i new).landmarks = Facet.rules.editAt (fun _ => new) i n.landmarks := by
  match n with
  | block b => cases i <;> rfl
  | atSet name arguments rules => cases i <;> rfl
  | atBlock name arguments contents =>
    rw [setRuleSet, landmarks, landmarks, landmarksAll_setRuleSetAll, Facet.editAt_enclosed rfl rfl]
  | atStatement name arguments => rfl

theorem landmarksAll_setRuleSetAll (i : Nat) (new : List α) (ns : List (Node α)) :
    landmarksAll (setRuleSetAll i new ns) =
      Facet.rules.editAt (fun _ => new) i (landmarksAll ns) := by
  match ns with
  | [] => rfl
  | n :: ns =>
    have hsize : n.ruleSets.length = (Facet.rules.all n.landmarks).length :=
      congrArg List.length (ruleSets_eq n)
    rw [landmarksAll, Facet.editAt_append, ← hsize]
    simp only [setRuleSetAll]
    split
    case isTrue => rw [landmarksAll, landmarks_setRuleSet]
    case isFalse => rw [landmarksAll, landmarksAll_setRuleSetAll]

end

mutual

theorem landmarks_setBlock (i : Nat) (new : Block α) (n : Node α) :
    (n.setBlock i new).landmarks = Facet.block.editAt (fun _ => new) i n.landmarks := by
  match n with
  | block b => cases i <;> rfl
  | atBlock name arguments contents =>
    rw [setBlock, landmarks, landmarks, landmarksAll_setBlockAll, Facet.editAt_enclosed rfl rfl]
  | atSet name arguments rules => rfl
  | atStatement name arguments => rfl

theorem landmarksAll_setBlockAll (i : Nat) (new : Block α) (ns : List (Node α)) :
    landmarksAll (setBlockAll i new ns) =
      Facet.block.editAt (fun _ => new) i (landmarksAll ns) := by
  match ns with
  | [] => rfl
  | n :: ns =>
    have hsize : n.blocks.length = (Facet.block.all n.landmarks).length :=
      congrArg List.length (blocks_eq n)
    rw [landmarksAll, Facet.editAt_append, ← hsize]
    simp only [setBlockAll]
    split
    case isTrue => rw [landmarksAll, landmarks_setBlock]
    case isFalse => rw [landmarksAll, landmarksAll_setBlockAll]

end

section

variable (f : RuleSet → Fresh RuleSet)

mutual

theorem mapBlocks_eq (n : Node Rule) :
    n.mapBlocks f = n.visit (fun b => return { b with rules := ← f b.rules }) pure := by
  match n with
  | block b => simp [mapBlocks, visit]
  | atSet name arguments rules => simp [mapBlocks, visit]
  | atBlock name arguments contents => rw [mapBlocks, visit, mapBlocksAll_eq]
  | atStatement name arguments => rfl

theorem mapBlocksAll_eq (ns : List (Node Rule)) :
    mapBlocksAll f ns = visitAll (fun b => return { b with rules := ← f b.rules }) pure ns := by
  match ns with
  | [] => rfl
  | n :: ns => rw [mapBlocksAll, visitAll, mapBlocks_eq, mapBlocksAll_eq]

end

end

end Node

namespace Sheet

section

variable [Monad m]

-- Comes to the rule sets of a sheet, those of its blocks and those of its at-rules.
def visitRuleSets (f : List α → m (List α)) (sheet : Sheet α) : m (Sheet α) :=
  Node.visitAll (fun b => return { b with rules := ← f b.rules }) f sheet

def visitBlocks (f : Block α → m (Block α)) (sheet : Sheet α) : m (Sheet α) :=
  Node.visitAll f pure sheet

variable [LawfulMonad m]

theorem landmarks_visitRuleSets (f : List α → m (List α)) (sheet : Sheet α) :
    landmarks <$> sheet.visitRuleSets f = sheet.landmarks.mapM (Facet.rules.visit f) := by
  refine (Node.landmarksAll_visitAll _ _ sheet).trans (congrArg (List.mapM · _) ?_)
  funext l
  cases l <;> simp [Landmark.visit, Facet.visit, Facet.rules, Landmark.rules?]

theorem landmarks_visitBlocks (f : Block α → m (Block α)) (sheet : Sheet α) :
    landmarks <$> sheet.visitBlocks f = sheet.landmarks.mapM (Facet.block.visit f) := by
  refine (Node.landmarksAll_visitAll _ _ sheet).trans (congrArg (List.mapM · _) ?_)
  funext l
  cases l <;> simp [Landmark.visit, Facet.visit, Facet.block, Landmark.block?]

end

theorem landmarks_mapBlocks (f : RuleSet → Fresh RuleSet) (sheet : Sheet Rule) :
    landmarks <$> (Node.mapBlocksAll f sheet : Fresh (Sheet Rule)) =
      sheet.landmarks.mapM (Facet.blockRules.visit f) := by
  rw [Node.mapBlocksAll_eq]
  refine (Node.landmarksAll_visitAll _ _ sheet).trans (congrArg (List.mapM · _) ?_)
  funext l
  cases l <;> simp [Landmark.visit, Facet.visit, Facet.blockRules, Landmark.block?]

-- Changes the rule set with index `i`, if there are as many.
def modifyRuleSet (i : Nat) (f : List α → List α) (sheet : Sheet α) : Sheet α :=
  match sheet.ruleSets[i]? with
  | some rules => sheet.setRuleSet i (f rules)
  | none => sheet

-- Changes the block with index `i`, if there are as many.
def modifyBlock (i : Nat) (f : Block α → Block α) (sheet : Sheet α) : Sheet α :=
  match sheet.blocks[i]? with
  | some b => sheet.setBlock i (f b)
  | none => sheet

theorem landmarks_modifyRuleSet (i : Nat) (f : List α → List α) (sheet : Sheet α) :
    (sheet.modifyRuleSet i f).landmarks = Facet.rules.editAt f i sheet.landmarks := by
  have hall : Facet.rules.all sheet.landmarks = sheet.ruleSets := sheet.ruleSets_eq.symm
  rw [Facet.editAt_eq_match, hall, modifyRuleSet]
  cases sheet.ruleSets[i]?
  case none => rfl
  case some rules => exact Node.landmarksAll_setRuleSetAll i (f rules) sheet

theorem landmarks_modifyBlock (i : Nat) (f : Block α → Block α) (sheet : Sheet α) :
    (sheet.modifyBlock i f).landmarks = Facet.block.editAt f i sheet.landmarks := by
  have hall : Facet.block.all sheet.landmarks = sheet.blocks := sheet.blocks_eq.symm
  rw [Facet.editAt_eq_match, hall, modifyBlock]
  cases sheet.blocks[i]?
  case none => rfl
  case some b => exact Node.landmarksAll_setBlockAll i (f b) sheet

-- A walk that counts the rule sets it comes to makes the edit that is addressed by index.
theorem visitRuleSets_onlyAt (i : Nat) (f : List α → List α) (sheet : Sheet α) :
    ((sheet.visitRuleSets (onlyAt i f)).run 0).1 = sheet.modifyRuleSet i f := by
  have h := landmarks_visitRuleSets (onlyAt i f) sheet
  exact landmarks_injective
    ((Facet.landmarks_of_counting h).trans (landmarks_modifyRuleSet i f sheet).symm)

theorem visitBlocks_onlyAt (i : Nat) (f : Block α → Block α) (sheet : Sheet α) :
    ((sheet.visitBlocks (onlyAt i f)).run 0).1 = sheet.modifyBlock i f := by
  have h := landmarks_visitBlocks (onlyAt i f) sheet
  exact landmarks_injective
    ((Facet.landmarks_of_counting h).trans (landmarks_modifyBlock i f sheet).symm)

theorem editsAt_modifyRuleSet (i : Nat) (f : List α → List α) (sheet : Sheet α) :
    Facet.rules.EditsAt i f sheet.landmarks (sheet.modifyRuleSet i f).landmarks := by
  rw [landmarks_modifyRuleSet]
  exact Facet.editsAt_editAt

theorem editsAt_modifyBlock (i : Nat) (f : Block α → Block α) (sheet : Sheet α) :
    Facet.block.EditsAt i f sheet.landmarks (sheet.modifyBlock i f).landmarks := by
  rw [landmarks_modifyBlock]
  exact Facet.editsAt_editAt

theorem map_rules_blocks (sheet : Sheet α) : sheet.blocks.map (·.rules) =
    (sheet.landmarks.filter Landmark.isBlock).filterMap Landmark.rules? := by
  rw [blocks_eq, List.map_filterMap, List.filterMap_filter]
  congr 1
  funext l
  cases l <;> rfl

-- The walks come to the same things in the same order. A change of one rule set or block, by its
-- index or in a walk that counts, is a change of this one alone. Where the shorthands of a sheet
-- are expanded or created, each block has its rules replaced and nothing else is.
theorem walks_confined (sheet : Sheet Rule) :
    (∀ i f, ((sheet.visitRuleSets (onlyAt i f)).run 0).1 = sheet.modifyRuleSet i f ∧
      (sheet.modifyRuleSet i f).ruleSets = sheet.ruleSets.modify i f ∧
      Facet.rules.EditsAt i f sheet.landmarks (sheet.modifyRuleSet i f).landmarks) ∧
    (∀ i f, ((sheet.visitBlocks (onlyAt i f)).run 0).1 = sheet.modifyBlock i f ∧
      (sheet.modifyBlock i f).blocks = sheet.blocks.modify i f ∧
      Facet.block.EditsAt i f sheet.landmarks (sheet.modifyBlock i f).landmarks) ∧
    sheet.ruleSets = sheet.landmarks.filterMap Landmark.rules? ∧
    sheet.blocks.map (·.rules) =
      (sheet.landmarks.filter Landmark.isBlock).filterMap Landmark.rules? ∧
    landmarks <$> sheet.expandAll =
      sheet.landmarks.mapM (Facet.blockRules.visit RuleSet.expandAll) ∧
    landmarks <$> sheet.createAll =
      sheet.landmarks.mapM (Facet.blockRules.visit RuleSet.createAll) := by
  refine ⟨fun i f => ⟨visitRuleSets_onlyAt i f sheet, ?_, editsAt_modifyRuleSet i f sheet⟩,
    fun i f => ⟨visitBlocks_onlyAt i f sheet, ?_, editsAt_modifyBlock i f sheet⟩, ruleSets_eq sheet,
    map_rules_blocks sheet, landmarks_mapBlocks _ sheet, landmarks_mapBlocks _ sheet⟩
  case refine_1 =>
    rw [ruleSets_eq, ruleSets_eq]
    exact (editsAt_modifyRuleSet i f sheet).all
  case refine_2 =>
    rw [blocks_eq, blocks_eq]
    exact (editsAt_modifyBlock i f sheet).all

end Sheet
end Stylesheet
