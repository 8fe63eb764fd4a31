import Stylesheet.Proofs.Sheet.Landmarks
import Stylesheet.Sheet.Edit
/-!
Removing blocks. A removal takes the blocks with the given selectors out of a list of nodes and then
out of the at-rules that are left, and adds up how many those were. Main statement:
`Sheet.dropBlocks_exact`.
-/

namespace Stylesheet

variable {α : Type} (selectors : List Selector)

def Landmark.isBlockOf (selectors : List Selector) : Landmark α → Bool
  | block b => b.selectors == selectors
  | atSet .. | atStatement .. | enter .. | leave => false

namespace Node

-- Adds what a list of nodes loses itself to what its at-rules lose.
def dropHere (ns : List (Node α)) (kept : Nat × List (Node α)) : Nat × List (Node α) :=
  (ns.length - (ns.filter fun n => !n.isBlockOf selectors).length + kept.1, kept.2)

mutual

-- Drops the blocks with these selectors from the at-rules in a node, and counts them.
def dropBlocks : Node α → Nat × Node α
  | atBlock name arguments contents =>
    (dropHere selectors contents (dropKept contents)).map id (atBlock name arguments)
  | n => (0, n)

-- The nodes of a list that are left, with what their at-rules lose.
def dropKept : List (Node α) → Nat × List (Node α)
  | [] => (0, [])
  | n :: ns =>
    let (later, rest) := dropKept ns
    if n.isBlockOf selectors then (later, rest)
    else
      let (inner, n) := n.dropBlocks
      (inner + later, n :: rest)

end

/-! ### The nodes that are left -/

mutual

theorem dropBlocks_snd (n : Node α) : (n.dropBlocks selectors).2 = n.removeBlocks selectors := by
  match n with
  | atBlock name arguments contents =>
    rw [dropBlocks, removeBlocks, ← dropKept_snd contents]
    rfl
  | block b | atSet name arguments rules | atStatement name arguments => rfl

theorem dropKept_snd (ns : List (Node α)) :
    (dropKept selectors ns).2 = removeBlocksAll selectors ns := by
  match ns with
  | [] => rfl
  | n :: ns =>
    simp only [dropKept, removeBlocksAll]
    split
    case isTrue => exact dropKept_snd ns
    case isFalse => rw [dropKept_snd ns, dropBlocks_snd n]

end

theorem landmarks_of_isBlockOf {n : Node α} (h : n.isBlockOf selectors) :
    ∃ l : Landmark α, n.landmarks = [l] ∧ l.isBlockOf selectors := by
  match n with
  | block b => exact ⟨.block b, rfl, h⟩

mutual

-- Only a block loses itself.
theorem landmarks_removeBlocks {n : Node α} (h : ¬n.isBlockOf selectors) :
    (n.removeBlocks selectors).landmarks = n.landmarks.filter (!·.isBlockOf selectors) := by
  match n with
  | atBlock name arguments contents =>
    simp [removeBlocks, landmarks, landmarksAll_removeBlocksAll contents, Landmark.isBlockOf]
  | block b =>
    have hb : ¬(Landmark.block b).isBlockOf selectors := h
    simp [landmarks, removeBlocks, hb]
  | atSet name arguments rules => rfl
  | atStatement name arguments => rfl

theorem landmarksAll_removeBlocksAll (ns : List (Node α)) :
    landmarksAll (removeBlocksAll selectors ns) =
      (landmarksAll ns).filter (!·.isBlockOf selectors) := by
  match ns with
  | [] => rfl
  | n :: ns =>
    have ih := landmarksAll_removeBlocksAll ns
    simp only [removeBlocksAll, landmarksAll, List.filter_append]
    split
    case isTrue h =>
      obtain ⟨l, hn, hl⟩ := landmarks_of_isBlockOf selectors h
      simp [hn, hl, ih]
    case isFalse h => rw [landmarksAll, landmarks_removeBlocks h, ih]

end

/-! ### How many are dropped -/

theorem dropHere_fst (ns : List (Node α)) (kept : Nat × List (Node α)) :
    (dropHere selectors ns kept).1 = ns.countP (·.isBlockOf selectors) + kept.1 := by
  have h := List.length_eq_countP_add_countP (·.isBlockOf selectors) (l := ns)
  rw [dropHere, ← List.countP_eq_length_filter]
  simp only [Bool.not_eq_true, Bool.decide_eq_false] at h
  omega

mutual

theorem dropBlocks_fst {n : Node α} (h : ¬n.isBlockOf selectors) :
    (n.dropBlocks selectors).1 = n.landmarks.countP (·.isBlockOf selectors) := by
  match n with
  | atBlock name arguments contents =>
    have ih := dropKept_fst contents
    simp only [dropBlocks, Prod.map_fst, id, dropHere_fst, ih]
    simp [landmarks, Landmark.isBlockOf]
  | block b =>
    have hb : ¬(Landmark.block b).isBlockOf selectors := h
    simp [landmarks, dropBlocks, hb]
  | atSet name arguments rules => rfl
  | atStatement name arguments => rfl

theorem dropKept_fst (ns : List (Node α)) :
    ns.countP (·.isBlockOf selectors) + (dropKept selectors ns).1 =
      (landmarksAll ns).countP (·.isBlockOf selectors) := by
  match ns with
  | [] => rfl
  | n :: ns =>
    have ih := dropKept_fst ns
    rw [landmarksAll, List.countP_append, ← ih, List.countP_cons]
    simp only [dropKept]
    split
    case isTrue h =>
      obtain ⟨l, hn, hl⟩ := landmarks_of_isBlockOf selectors h
      simp [hn, hl]
      omega
    case isFalse h => rw [← dropBlocks_fst h]; omega

end

end Node

namespace Sheet

-- Drops the blocks with these selectors, those in at-rules included, and counts them.
def dropBlocks (selectors : List Selector) (sheet : Sheet α) : Nat × Sheet α :=
  Node.dropHere selectors sheet (Node.dropKept selectors sheet)

variable (sheet : Sheet α)

theorem landmarks_removeBlocks : (sheet.removeBlocks selectors).landmarks =
    sheet.landmarks.filter (!·.isBlockOf selectors) :=
  Node.landmarksAll_removeBlocksAll selectors sheet

theorem blocks_removeBlocks : (sheet.removeBlocks selectors).blocks =
    sheet.blocks.filter (·.selectors != selectors) := by
  rw [blocks_eq, blocks_eq, landmarks_removeBlocks, List.filter_filterMap, List.filterMap_filter]
  congr 1
  funext l
  cases l <;> simp [Landmark.isBlockOf, Landmark.block?, Option.filter, bne]

theorem dropBlocks_eq : sheet.dropBlocks selectors =
    (sheet.blocks.countP (·.selectors == selectors), sheet.removeBlocks selectors) := by
  refine Prod.ext ?_ (Node.dropKept_snd selectors sheet)
  rw [dropBlocks, Node.dropHere_fst, Node.dropKept_fst, blocks_eq, List.countP_filterMap]
  refine List.countP_congr fun l _ => ?_
  cases l <;> simp [Landmark.isBlockOf, Landmark.block?]

-- The removal counts and leaves out the blocks with the selectors, and nothing else is lost: not
-- even an at-rule that held no other nodes. To remove them again removes nothing.
theorem dropBlocks_exact :
    sheet.dropBlocks selectors =
      (sheet.blocks.countP (·.selectors == selectors), sheet.removeBlocks selectors) ∧
    (sheet.removeBlocks selectors).blocks = sheet.blocks.filter (·.selectors != selectors) ∧
    (sheet.removeBlocks selectors).landmarks =
      sheet.landmarks.filter (!·.isBlockOf selectors) ∧
    (sheet.removeBlocks selectors).dropBlocks selectors =
      (0, sheet.removeBlocks selectors) := by
  refine ⟨dropBlocks_eq selectors sheet, blocks_removeBlocks selectors sheet,
    landmarks_removeBlocks selectors sheet, ?_⟩
  have hnone : (sheet.removeBlocks selectors).blocks.countP (·.selectors == selectors) = 0 := by
    rw [blocks_removeBlocks, List.countP_filter]
    exact List.countP_eq_zero.mpr fun b _ => by simp
  have htwice : (sheet.removeBlocks selectors).removeBlocks selectors =
      sheet.removeBlocks selectors := landmarks_injective <| by
    rw [landmarks_removeBlocks, landmarks_removeBlocks, List.filter_filter]
    exact List.filter_congr fun l _ => Bool.and_self _
  rw [dropBlocks_eq, hnone, htwice]

end Sheet
end Stylesheet
