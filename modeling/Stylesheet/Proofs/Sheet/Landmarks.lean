import Stylesheet.Sheet.Basic
/-!
Sheets laid out flat. A walk through a sheet comes to its blocks and at-rules one after the other,
and it enters and leaves the at-rules that hold nodes; what it comes to tells the whole sheet. Main
statements: `Sheet.landmarks_injective`, and that the blocks and the rule sets of a sheet are those
of its landmarks (`Sheet.blocks_eq`, `Sheet.ruleSets_eq`).
-/

namespace Stylesheet

variable {α : Type}

-- What a walk comes to. An at-rule that holds nodes is entered in front of them and left behind.
inductive Landmark (α : Type) where
  | block (b : Block α)
  | atSet (name arguments : String) (rules : List α)
  | atStatement (name arguments : String)
  | enter (name arguments : String)
  | leave

namespace Landmark

def block? : Landmark α → Option (Block α)
  | block b => some b
  | atSet .. | atStatement .. | enter .. | leave => none

def rules? : Landmark α → Option (List α)
  | block b => some b.rules
  | atSet _ _ rules => some rules
  | atStatement .. | enter .. | leave => none

def isBlock (l : Landmark α) : Bool :=
  l.block?.isSome

end Landmark

namespace Node

open Landmark (block? rules? isBlock)

mutual

def landmarks : Node α → List (Landmark α)
  | block b => [.block b]
  | atSet name arguments rules => [.atSet name arguments rules]
  | atBlock name arguments contents =>
    .enter name arguments :: (landmarksAll contents ++ [.leave])
  | atStatement name arguments => [.atStatement name arguments]

def landmarksAll : List (Node α) → List (Landmark α)
  | [] => []
  | n :: ns => n.landmarks ++ landmarksAll ns

end

/-! ### What the landmarks tell -/

-- Whether a list of nodes is over: no landmark is left, or the at-rule is left that holds them.
def Ends (ls : List (Landmark α)) : Prop :=
  ∀ l ∈ ls.head?, l = .leave

theorem ends_nil : Ends ([] : List (Landmark α)) := by
  simp [Ends]

theorem ends_leave (ls : List (Landmark α)) : Ends (.leave :: ls) := by
  simp [Ends]

theorem not_ends_landmarks (n : Node α) (ls : List (Landmark α)) : ¬Ends (n.landmarks ++ ls) := by
  cases n <;> simp [Ends, landmarks]

mutual

theorem landmarks_append_inj {n k : Node α} {ls ms : List (Landmark α)}
    (h : n.landmarks ++ ls = k.landmarks ++ ms) : n = k ∧ ls = ms := by
  match n with
  | atBlock name arguments contents =>
    cases k <;> simp only [landmarks, List.cons_append, List.append_assoc, List.cons.injEq,
      Landmark.enter.injEq, reduceCtorEq, false_and] at h
    case atBlock =>
      obtain ⟨⟨rfl, rfl⟩, hrest⟩ := h
      obtain ⟨rfl, hleave⟩ := landmarksAll_append_inj hrest (ends_leave ls) (ends_leave ms)
      exact ⟨rfl, (List.cons.inj hleave).2⟩
  | block b => cases k <;> simp_all [landmarks]
  | atSet name arguments rules => cases k <;> simp_all [landmarks]
  | atStatement name arguments => cases k <;> simp_all [landmarks]

theorem landmarksAll_append_inj {ns ks : List (Node α)} {ls ms : List (Landmark α)}
    (h : landmarksAll ns ++ ls = landmarksAll ks ++ ms) (hl : Ends ls) (hm : Ends ms) :
    ns = ks ∧ ls = ms := by
  match ns, ks with
  | [], [] => exact ⟨rfl, h⟩
  | [], k :: ks =>
    rw [landmarksAll, landmarksAll, List.nil_append, List.append_assoc] at h
    exact absurd (h ▸ hl) (not_ends_landmarks k _)
  | n :: ns, [] =>
    rw [landmarksAll, landmarksAll, List.nil_append, List.append_assoc] at h
    exact absurd (h ▸ hm) (not_ends_landmarks n _)
  | n :: ns, k :: ks =>
    rw [landmarksAll, landmarksAll, List.append_assoc, List.append_assoc] at h
    obtain ⟨rfl, hrest⟩ := landmarks_append_inj h
    obtain ⟨rfl, rfl⟩ := landmarksAll_append_inj hrest hl hm
    exact ⟨rfl, rfl⟩

end

mutual

theorem blocks_eq (n : Node α) : n.blocks = n.landmarks.filterMap block? := by
  match n with
  | atBlock name arguments contents =>
    simpa [blocks, landmarks, block?, List.filterMap_cons] using blocksAll_eq contents
  | block b => rfl
  | atSet name arguments rules => rfl
  | atStatement name arguments => rfl

theorem blocksAll_eq (ns : List (Node α)) : blocksAll ns = (landmarksAll ns).filterMap block? := by
  match ns with
  | [] => rfl
  | n :: ns => rw [blocksAll, landmarksAll, List.filterMap_append, blocks_eq n, blocksAll_eq ns]

end

mutual

theorem ruleSets_eq (n : Node α) : n.ruleSets = n.landmarks.filterMap rules? := by
  match n with
  | atBlock name arguments contents =>
    simpa [ruleSets, landmarks, rules?, List.filterMap_cons] using ruleSetsAll_eq contents
  | block b => rfl
  | atSet name arguments rules => rfl
  | atStatement name arguments => rfl

theorem ruleSetsAll_eq (ns : List (Node α)) :
    ruleSetsAll ns = (landmarksAll ns).filterMap rules? := by
  match ns with
  | [] => rfl
  | n :: ns =>
    rw [ruleSetsAll, landmarksAll, List.filterMap_append, ruleSets_eq n, ruleSetsAll_eq ns]

end

end Node

namespace Sheet

def landmarks (sheet : Sheet α) : List (Landmark α) :=
  Node.landmarksAll sheet

theorem landmarks_injective {sheet sheet' : Sheet α} (h : sheet.landmarks = sheet'.landmarks) :
    sheet = sheet' := by
  have h : Node.landmarksAll sheet ++ [] = Node.landmarksAll sheet' ++ [] := congrArg (· ++ []) h
  exact (Node.landmarksAll_append_inj h Node.ends_nil Node.ends_nil).1

theorem blocks_eq (sheet : Sheet α) : sheet.blocks = sheet.landmarks.filterMap Landmark.block? :=
  Node.blocksAll_eq sheet

theorem ruleSets_eq (sheet : Sheet α) :
    sheet.ruleSets = sheet.landmarks.filterMap Landmark.rules? :=
  Node.ruleSetsAll_eq sheet

end Sheet
end Stylesheet
