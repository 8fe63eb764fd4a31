import Stylesheet.Proofs.Text.Case
import Stylesheet.Value.Reader
/-!
The shape of values that are read. Commas divide a value into groups, white space a group into
words, and slashes a word into components; a function is a component, whatever value it is of.
Main statement: `Value.hasShape_of_ofTokens`.
-/

namespace Stylesheet.Value

-- What a value is a part of, from the inside out.
inductive Level where
  | component
  | word
  | group
  | whole
deriving DecidableEq

-- What a value without parts in it is if it was read: numbers are finite, and units and the digits
-- of colors have small letters.
def isReadLeaf : Value → Bool
  | size ⟨.finite _, unit⟩ => unit.all fun unit => Text.lower unit == unit
  | size _ => false
  | hex digits => isHexColor digits.toList && Text.lower digits == digits
  | _ => true

def kindOf (name : String) : FunctionKind :=
  if isColorFunction name then .color else .plain

mutual

-- Whether a value is built as one of its level is. A list has two items or more.
def hasShape : Level → Value → Bool
  | _, function kind name arguments => kind == kindOf name && argumentsHaveShape arguments
  | .component, pair .. => false
  | _, pair first second => hasShape .word first && hasShape .component second
  | .group, list .space items => 2 ≤ items.length && itemsHaveShape .word items
  | .whole, list .space items => 2 ≤ items.length && itemsHaveShape .word items
  | .whole, list .comma items => 2 ≤ items.length && itemsHaveShape .group items
  | _, list .. => false
  | _, v => v.isReadLeaf

def argumentsHaveShape : Option Value → Bool
  | some v => hasShape .whole v
  | none => true

def itemsHaveShape (level : Level) : List Value → Bool
  | v :: vs => hasShape level v && itemsHaveShape level vs
  | [] => true

end

-- The equations of the three are made here once, or else the proofs below would all wait for them.
attribute [grind] hasShape argumentsHaveShape itemsHaveShape

theorem itemsHaveShape_iff {level : Level} {vs : List Value} :
    itemsHaveShape level vs ↔ ∀ v ∈ vs, hasShape level v := by
  induction vs
  case nil => simp [itemsHaveShape]
  case cons ih => simp [itemsHaveShape, ih]

theorem hasShape_word_of_component {v : Value} (h : hasShape .component v) : hasShape .word v := by
  cases v <;> simp_all [hasShape]

theorem hasShape_group_of_word {v : Value} (h : hasShape .word v) : hasShape .group v := by
  cases v <;> simp_all [hasShape]

theorem hasShape_whole_of_group {v : Value} (h : hasShape .group v) : hasShape .whole v := by
  cases v
  case list separator items => cases separator <;> simp_all [hasShape]
  all_goals simp_all [hasShape]

theorem hasShape_pair {level : Level} {v w : Value} (h : hasShape level (pair v w)) :
    level ≠ .component ∧ hasShape .word v ∧ hasShape .component w := by
  cases level <;> simp_all [hasShape]

theorem hasShape_list {level : Level} {separator : Separator} {items : List Value}
    (h : hasShape level (list separator items)) :
    items ≠ [] ∧ ∃ inner, itemsHaveShape inner items := by
  obtain ⟨hlen, hi⟩ : 2 ≤ items.length ∧ ∃ inner, itemsHaveShape inner items := by
    cases level <;> cases separator <;> simp only [hasShape, Bool.and_eq_true, decide_eq_true_eq,
      reduceCtorEq] at h
    all_goals exact ⟨h.1, _, h.2⟩
  exact ⟨List.ne_nil_of_length_pos (by omega), hi⟩

-- Joining one value keeps it, so what is joined has the shape of a list or of its only item.
theorem hasShape_spaceList {words : List Value} (hn : words ≠ [])
    (h : ∀ w ∈ words, hasShape .word w) : hasShape .group (spaceList words) := by
  cases words
  case nil => contradiction
  case cons w words =>
    cases words
    case nil => exact hasShape_group_of_word (h w List.mem_cons_self)
    case cons => simpa [spaceList, join, hasShape] using itemsHaveShape_iff.mpr h

theorem hasShape_commaList {groups : List Value} (hn : groups ≠ [])
    (h : ∀ g ∈ groups, hasShape .group g) : hasShape .whole (commaList groups) := by
  cases groups
  case nil => contradiction
  case cons g groups =>
    cases groups
    case nil => exact hasShape_whole_of_group (h g List.mem_cons_self)
    case cons => simpa [commaList, join, hasShape] using itemsHaveShape_iff.mpr h

-- What a group is made of are components and slashes.
def Part.isShaped : Part → Bool
  | value v => hasShape .component v
  | slash _ => true

def Item.isShaped : Item → Bool
  | part p => p.isShaped
  | comma _ => true

theorem isReadLeaf_ofHash (name : String) : hasShape .component (ofHash name) := by
  simp only [ofHash, hex?]
  split
  case isTrue h =>
    simp only [isHexColor, Bool.and_eq_true, List.all_eq_true] at h
    simp only [Option.getD_some, hasShape, isReadLeaf, Text.lower_lower, beq_self_eq_true,
      Bool.and_true]
    simp only [isHexColor, Text.lower, String.toList_ofList, List.length_map, Bool.and_eq_true,
      List.all_eq_true, List.forall_mem_map]
    exact ⟨h.1, fun c hc => Text.isHexDigit_toLower (h.2 c hc)⟩
  case isFalse => rfl

theorem isShaped_leafItem {t : Placed} {item : Item} (h : leafItem t = .ok (some item)) :
    item.isShaped := by
  obtain ⟨token, position⟩ := t
  cases token
  case hash name =>
    cases h
    exact isReadLeaf_ofHash name
  case number x unit written =>
    cases h
    cases unit <;>
      simp [Item.isShaped, Part.isShaped, hasShape, isReadLeaf, Size.ofParts, Text.lower_lower]
  all_goals cases h <;> rfl

theorem isShaped_splitAtCommas {last : Position} {part : List Part} {items : List Item}
    {parts : List (List Part)} (h : splitAtCommas last part items = .ok parts)
    (hp : ∀ p ∈ part, p.isShaped) (hi : ∀ i ∈ items, i.isShaped) :
    parts ≠ [] ∧ ∀ ps ∈ parts, ps ≠ [] ∧ ∀ p ∈ ps, p.isShaped := by
  fun_induction splitAtCommas last part items generalizing parts
  case case1 => cases h
  case case2 hn =>
    cases h
    simp_all
  case case3 => cases h
  case case4 last part q rest hn ih =>
    obtain ⟨_, hr⟩ := List.forall_mem_cons.mp hi
    cases hs : splitAtCommas q [] rest
    case error => simp [hs, Except.map] at h
    case ok more =>
      simp only [hs, Except.map, Except.ok.injEq] at h
      subst h
      obtain ⟨_, hm⟩ := ih hs (by simp) hr
      exact ⟨by simp, List.forall_mem_cons.mpr ⟨⟨by simpa using hn, hp⟩, hm⟩⟩
  case case5 last part p rest ih =>
    obtain ⟨hp', hr⟩ := List.forall_mem_cons.mp hi
    refine ih h ?_ hr
    simp only [List.mem_append, List.mem_singleton]
    rintro q (hq | rfl)
    · exact hp q hq
    · exact hp'

theorem hasShape_words {current : Option Value} {parts : List Part} {vs : List Value}
    (h : words current parts = .ok vs) (hc : ∀ v ∈ current, hasShape .word v)
    (hp : ∀ p ∈ parts, p.isShaped) :
    (current.isSome ∨ parts ≠ [] → vs ≠ []) ∧ ∀ v ∈ vs, hasShape .word v := by
  fun_induction words current parts generalizing vs
  case case1 current => cases h; cases current <;> simp_all
  case case2 current v rest ih =>
    obtain ⟨hv, hr⟩ := List.forall_mem_cons.mp hp
    cases hw : words (some v) rest
    case error => simp [hw, Except.map] at h
    case ok ws =>
      simp only [hw, Except.map, Except.ok.injEq] at h
      subst h
      obtain ⟨hn, hs⟩ := ih hw (by simpa using hasShape_word_of_component hv) hr
      cases current <;> simp_all
  case case4 w _ v rest ih =>
    obtain ⟨_, hr⟩ := List.forall_mem_cons.mp hp
    obtain ⟨hv, hr⟩ := List.forall_mem_cons.mp hr
    obtain ⟨hn, hs⟩ := ih h (by simpa [hasShape] using ⟨hc w rfl, hv⟩) hr
    simp_all
  all_goals cases h

-- The group that the items between two commas make.
def group (part : List Part) : Except Diagnostic Value :=
  (words none part).map spaceList

theorem ofItems_eq (items : List Item) (finish : Position) :
    ofItems items finish =
      (splitAtCommas finish [] items).bind fun parts => (parts.mapM group).map commaList := by
  simp only [ofItems, bind, pure, Except.pure]
  congr

-- Reading a run is grouping the items of its nesting.
theorem ofTokens_eq_ok_iff_ofItems {tokens : List Placed} {finish : Position} {v : Value} :
    ofTokens tokens finish = .ok v ↔ ∃ items,
      nestedItems (Nested.ofRun [] [] tokens) = .ok items ∧ ofItems items finish = .ok v := by
  cases tokens
  case nil =>
    have hnil : nestedItems (Nested.ofRun [] [] []) = .ok [] := rfl
    simp [ofTokens, hnil, ofItems_eq, splitAtCommas, Except.bind]
  case cons t ts =>
    have hbind : ofTokens (t :: ts) finish =
        (nestedItems (Nested.ofRun [] [] (t :: ts))).bind (ofItems · finish) := rfl
    rw [hbind]
    cases nestedItems (Nested.ofRun [] [] (t :: ts)) <;> simp [Except.bind]

theorem hasShape_groups {parts : List (List Part)} {groups : List Value}
    (h : parts.mapM group = .ok groups)
    (hp : ∀ ps ∈ parts, ps ≠ [] ∧ ∀ p ∈ ps, p.isShaped) :
    groups.length = parts.length ∧ ∀ g ∈ groups, hasShape .group g := by
  induction parts generalizing groups
  case nil => cases h; simp
  case cons part parts ih =>
    obtain ⟨⟨hn, hs⟩, hr⟩ := List.forall_mem_cons.mp hp
    rw [List.mapM_cons] at h
    cases hw : words none part
    case error => simp [group, hw, Except.map, bind, Except.bind] at h
    case ok ws =>
      cases hm : parts.mapM group
      case error => simp [group, hw, hm, Except.map, bind, Except.bind] at h
      case ok gs =>
        simp only [group, hw, hm, Except.map, bind, Except.bind, pure, Except.pure,
          Except.ok.injEq] at h
        subst h
        obtain ⟨hl, hg⟩ := ih hm hr
        obtain ⟨hne, hws⟩ := hasShape_words hw (by simp) hs
        refine ⟨by simp [hl], List.forall_mem_cons.mpr ⟨?_, hg⟩⟩
        exact hasShape_spaceList (hne (.inr hn)) hws

theorem hasShape_ofItems {items : List Item} {finish : Position} {v : Value}
    (h : ofItems items finish = .ok v) (hi : ∀ i ∈ items, i.isShaped) : hasShape .whole v := by
  rw [ofItems_eq] at h
  cases hs : splitAtCommas finish [] items
  case error => simp [hs, Except.bind] at h
  case ok parts =>
    obtain ⟨hn, hp⟩ := isShaped_splitAtCommas hs (by simp) hi
    cases hm : parts.mapM group
    case error => simp [hs, hm, Except.bind, Except.map] at h
    case ok groups =>
      simp only [hs, hm, Except.bind, Except.map, Except.ok.injEq] at h
      subst h
      obtain ⟨hl, hg⟩ := hasShape_groups hm hp
      refine hasShape_commaList ?_ hg
      intro he
      exact hn (List.length_eq_zero_iff.mp (by simp [← hl, he]))

theorem nestedItem_group_eq_ok_iff {opener : Placed} {inner : List Nested} {closer : Position}
    {item : Option Item} : nestedItem (.group opener inner closer) = .ok item ↔
      ∃ items arguments, nestedItems inner = .ok items ∧
        (if inner.all Nested.isWhitespace then arguments = none
          else ∃ v, arguments = some v ∧ ofItems items closer = .ok v) ∧
        item = some (.part (.value (call opener.token arguments))) := by
  rw [nestedItem]
  cases nestedItems inner
  case error => simp [bind, Except.bind]
  case ok items =>
    split
    case isTrue => simp [bind, Except.bind, pure, Except.pure, eq_comm]
    case isFalse =>
      cases hv : ofItems items closer <;>
        simp [hv, bind, Except.bind, pure, Except.pure, Functor.map, Except.map]
      exact eq_comm

theorem nestedItems_cons_eq_ok_iff {n : Nested} {ns : List Nested} {items : List Item} :
    nestedItems (n :: ns) = .ok items ↔ ∃ item rest, nestedItem n = .ok item ∧
      nestedItems ns = .ok rest ∧ item.toList ++ rest = items := by
  rw [nestedItems]
  cases nestedItem n
  case error => simp [bind, Except.bind]
  case ok => cases nestedItems ns <;> simp [bind, Except.bind, pure, Except.pure]

mutual

theorem isShaped_nestedItem {n : Nested} {item : Item} (h : nestedItem n = .ok (some item)) :
    item.isShaped := by
  match n with
  | .leaf t => exact isShaped_leafItem (by simpa [nestedItem] using h)
  | .group opener inner closer =>
    obtain ⟨items, arguments, hi, ha, hitem⟩ := nestedItem_group_eq_ok_iff.mp h
    have hs := isShaped_nestedItems hi
    have harguments : argumentsHaveShape arguments := by
      split at ha
      case isTrue =>
        subst ha
        rfl
      case isFalse =>
        obtain ⟨v, rfl, hv⟩ := ha
        exact hasShape_ofItems hv hs
    cases hitem
    simp [Item.isShaped, Part.isShaped, call, kindOf, hasShape, harguments]

theorem isShaped_nestedItems {ns : List Nested} {items : List Item}
    (h : nestedItems ns = .ok items) : ∀ i ∈ items, i.isShaped := by
  match ns with
  | [] => cases h; simp
  | n :: ns =>
    obtain ⟨item, rest, hn, hr, rfl⟩ := nestedItems_cons_eq_ok_iff.mp h
    have ih := isShaped_nestedItems hr
    cases item
    case none => simpa using ih
    case some i => simpa using ⟨isShaped_nestedItem hn, ih⟩

end

-- The values that the parser makes.
def IsRead (v : Value) : Prop :=
  ∃ tokens finish, ofTokens tokens finish = .ok v

-- Every value that is read has the shape of one.
theorem hasShape_of_ofTokens {tokens : List Placed} {finish : Position} {v : Value}
    (h : ofTokens tokens finish = .ok v) : hasShape .whole v := by
  obtain ⟨items, hi, hv⟩ := ofTokens_eq_ok_iff_ofItems.mp h
  exact hasShape_ofItems hv (isShaped_nestedItems hi)

theorem IsRead.hasShape {v : Value} (h : v.IsRead) : hasShape .whole v := by
  obtain ⟨_, _, h⟩ := h
  exact hasShape_of_ofTokens h

end Stylesheet.Value
