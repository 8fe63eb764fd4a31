import Stylesheet.Proofs.Shorthand.Collapse
import Stylesheet.Proofs.Shorthand.Repeated
/-!
How created values are built. Values that are read come in levels: commas divide a value into
groups, white space a group into words, and slashes a word into components. A background or a font
takes some of its parts in whole, so that a list in one of them ends up inside another list. Main
statement: this is the only way to a value that is not built in levels
(`RuleSet.isBuilt_createAll_iff`).
-/

namespace Stylesheet

namespace Value

variable {level : Level} {v w : Value} {vs : List Value}

mutual

-- Whether a value is built as one of its level is, whatever it is made of.
def isBuilt : Level → Value → Bool
  | _, function _ _ arguments => argumentsAreBuilt arguments
  | .component, pair .. => false
  | _, pair first second => isBuilt .word first && isBuilt .component second
  | .group, list .space items => 2 ≤ items.length && itemsAreBuilt .word items
  | .whole, list .space items => 2 ≤ items.length && itemsAreBuilt .word items
  | .whole, list .comma items => 2 ≤ items.length && itemsAreBuilt .group items
  | _, list .. => false
  | _, _ => true

def argumentsAreBuilt : Option Value → Bool
  | some v => isBuilt .whole v
  | none => true

def itemsAreBuilt (level : Level) : List Value → Bool
  | v :: vs => isBuilt level v && itemsAreBuilt level vs
  | [] => true

end

-- The equations of the three are made here once, or else the proofs below would all wait for them.
attribute [grind] isBuilt argumentsAreBuilt itemsAreBuilt

theorem itemsAreBuilt_iff : itemsAreBuilt level vs ↔ ∀ v ∈ vs, isBuilt level v := by
  induction vs
  case nil => simp [itemsAreBuilt]
  case cons ih => simp [itemsAreBuilt, ih]

def isPair : Value → Bool
  | pair .. => true
  | _ => false

-- A value is a word if it is no list, and a component if it is no pair either.
theorem isBuilt_word_iff (h : isBuilt .whole v) : isBuilt .word v ↔ v.isList = false := by
  cases v
  case list separator items => cases separator <;> simp [isBuilt, isList]
  all_goals simp_all [isBuilt, isList]

theorem isBuilt_component_iff (h : isBuilt .whole v) :
    isBuilt .component v ↔ v.isList = false ∧ v.isPair = false := by
  cases v
  case list separator items => cases separator <;> simp [isBuilt, isList]
  all_goals simp_all [isBuilt, isList, isPair]

theorem isBuilt_group_iff (h : isBuilt .whole v) : isBuilt .group v ↔ v.isCommaList = false := by
  cases v
  case list separator items => cases separator <;> simp_all [isBuilt, isCommaList]
  all_goals simp_all [isBuilt, isCommaList]

theorem isBuilt_whole_of_group (h : isBuilt .group v) : isBuilt .whole v := by
  cases v
  case list separator items => cases separator <;> simp_all [isBuilt]
  all_goals simp_all [isBuilt]

theorem isBuilt_whole_of_word (h : isBuilt .word v) : isBuilt .whole v := by
  cases v <;> simp_all [isBuilt]

-- The words of a group.
theorem isBuilt_of_mem_components (h : isBuilt .group v) (hw : w ∈ v.components) :
    isBuilt .word w := by
  unfold components at hw
  split at hw
  case h_1 items =>
    simp only [isBuilt, Bool.and_eq_true] at h
    exact itemsAreBuilt_iff.mp h.2 w hw
  case h_2 hl =>
    obtain rfl := List.mem_singleton.mp hw
    cases w
    case list separator items =>
      cases separator
      case space => exact absurd rfl (hl items)
      case comma => simp [isBuilt] at h
    all_goals simp_all [isBuilt]

theorem isCommaList_spaceList_of_length (h : 2 ≤ vs.length) :
    (spaceList vs).isCommaList = false := by
  match vs with
  | _ :: _ :: _ => rfl

-- A list of words is built of them; one word alone is no list.
theorem isBuilt_spaceList_iff (h : 2 ≤ vs.length) :
    isBuilt .group (spaceList vs) ↔ ∀ v ∈ vs, isBuilt .word v := by
  match vs with
  | v :: w :: vs => simp [spaceList, join, isBuilt, itemsAreBuilt_iff]

theorem isBuilt_spaceList (hn : vs ≠ []) (h : ∀ v ∈ vs, isBuilt .word v) :
    isBuilt .whole (spaceList vs) := by
  match vs with
  | [v] => exact isBuilt_whole_of_word (h v List.mem_cons_self)
  | v :: w :: vs => exact isBuilt_whole_of_group ((isBuilt_spaceList_iff (by simp)).mpr h)

theorem isBuilt_commaList_iff {first : Value} (h : ∀ v ∈ vs, isBuilt .group v)
    (hf : first.isCommaList = false) :
    isBuilt .whole (commaList (first :: vs)) ↔ isBuilt .group first := by
  cases vs
  case nil => exact ⟨fun hw => (isBuilt_group_iff hw).mpr hf, isBuilt_whole_of_group⟩
  case cons v vs =>
    simp only [commaList, join, isBuilt, itemsAreBuilt_iff, List.forall_mem_cons,
      Bool.and_eq_true, decide_eq_true_eq]
    exact ⟨fun hw => hw.2.1, fun hw => ⟨by simp, hw, List.forall_mem_cons.mp h⟩⟩

end Value

-- The values that the parts of a shorthand count with are built in levels.
def Longhands.AreBuilt (l : Longhands) : Prop :=
  ∀ n v, l.value? n = some v → Value.isBuilt .whole v

/-! ### Backgrounds -/

namespace Background

variable {l : Longhands} {v : Value}

-- The parts that a background takes in whole.
def taken (l : Longhands) : List Value :=
  (l.value? "background-color").toList ++ (l.said "background-image" "none").toList ++
    (l.said "background-repeat" "repeat").toList ++
    (l.said "background-attachment" "scroll").toList

def offsets (l : Longhands) : List Value :=
  (l.value? "background-position").toList.flatMap positionParts

-- Whether no list comes to stand beside something else.
def IsFlat (l : Longhands) : Prop :=
  (taken l ++ offsets l).length ≤ 1 ∨ ∀ v ∈ taken l, v.isList = false

theorem value?_eq (h : value? l = some v) : (∀ n w, l.value? n = some w → w.isCommaList = false) ∧
    v = if taken l ++ offsets l = [] then .keyword "none"
      else .spaceList (taken l ++ offsets l) := by
  simp only [value?, Option.ite_none_left_eq_some, Option.some.injEq] at h
  obtain ⟨ha, rfl⟩ := h
  refine ⟨fun n w hw => ?_, by simp only [List.isEmpty_iff]; rfl⟩
  have := Longhands.not_of_any (eq_false_of_ne_true ha) hw
  simp only [Bool.or_eq_false_iff] at this
  exact this.1

theorem isBuilt_of_mem_taken (hl : l.AreBuilt) (h : v ∈ taken l) : Value.isBuilt .whole v := by
  simp only [taken, List.mem_append] at h
  rcases h with ((h | h) | h) | h
  · exact hl _ _ (Option.mem_toList.mp h)
  all_goals exact hl _ _ (Longhands.of_mem_said h).1

-- A position is taken apart, so that nothing in it is a list.
theorem isBuilt_of_mem_offsets (hl : l.AreBuilt)
    (hc : ∀ n w, l.value? n = some w → w.isCommaList = false) (h : v ∈ offsets l) :
    Value.isBuilt .word v := by
  simp only [offsets, List.mem_flatMap, Option.mem_toList] at h
  obtain ⟨w, hw, hv⟩ := h
  have hg : ∀ v ∈ w.components, Value.isBuilt .word v := fun v hv =>
    Value.isBuilt_of_mem_components ((Value.isBuilt_group_iff (hl _ _ hw)).mpr (hc _ _ hw)) hv
  unfold positionParts at hv
  split at hv
  case isTrue => cases hv
  case isFalse =>
    split at hv
    case h_1 first second he =>
      split at hv
      case isTrue => exact List.mem_singleton.mp hv ▸ rfl
      case isFalse => exact hg v (he ▸ hv)
    case h_2 => exact hg v hv

theorem isBuilt_value?_iff (hl : l.AreBuilt) (h : value? l = some v) :
    Value.isBuilt .whole v ↔ IsFlat l := by
  obtain ⟨hc, rfl⟩ := value?_eq h
  have hoffsets : ∀ v ∈ offsets l, Value.isBuilt .word v := fun v hv =>
    isBuilt_of_mem_offsets hl hc hv
  have htaken : ∀ v ∈ taken l, Value.isBuilt .word v ↔ v.isList = false := fun v hv =>
    Value.isBuilt_word_iff (isBuilt_of_mem_taken hl hv)
  have hwords : (∀ v ∈ taken l ++ offsets l, Value.isBuilt .word v) ↔
      ∀ v ∈ taken l, v.isList = false := by
    rw [List.forall_mem_append, forall₂_congr htaken]
    exact and_iff_left hoffsets
  split
  case isTrue hnil => simp [Value.isBuilt, IsFlat, hnil]
  case isFalse hne =>
    by_cases hlen : (taken l ++ offsets l).length ≤ 1
    case pos =>
      obtain ⟨w, hw⟩ := List.length_eq_one_iff.mp
        (Nat.le_antisymm hlen (List.length_pos_iff.mpr hne))
      rw [hw]
      refine iff_of_true ?_ (.inl hlen)
      rcases List.mem_append.mp (hw ▸ List.mem_singleton_self w) with hmem | hmem
      · exact isBuilt_of_mem_taken hl hmem
      · exact Value.isBuilt_whole_of_word (hoffsets w hmem)
    case neg =>
      have htwo : 2 ≤ (taken l ++ offsets l).length := by omega
      rw [IsFlat, or_iff_right hlen, ← hwords, ← Value.isBuilt_spaceList_iff htwo]
      exact ⟨fun hw => (Value.isBuilt_group_iff hw).mpr (Value.isCommaList_spaceList_of_length htwo),
        Value.isBuilt_whole_of_group⟩

end Background

/-! ### Fonts -/

namespace Font

variable {l : Longhands} {v : Value}

-- Whether style, variant, weight and size are no lists, and a line height is no list and no pair.
structure IsFlat (l : Longhands) : Prop where
  modifiers : ∀ n ∈ ["font-style", "font-variant", "font-weight"], ∀ v ∈ l.said n "normal",
    v.isList = false
  size : ∀ v ∈ l.value? "font-size", v.isList = false
  lineHeight : ∀ v ∈ l.said "line-height" "normal", v.isList = false ∧ v.isPair = false

theorem isBuilt_splitFallbacks? {first : Value} {fallbacks : List Value}
    (h : splitFallbacks? v = some (first, fallbacks)) (hv : Value.isBuilt .whole v) :
    Value.isBuilt .group first ∧ ∀ w ∈ fallbacks, Value.isBuilt .group w := by
  unfold splitFallbacks? at h
  split at h
  case h_1 => cases h
  case h_2 =>
    cases h
    simp only [Value.isBuilt, Bool.and_eq_true, Value.itemsAreBuilt_iff] at hv
    exact List.forall_mem_cons.mp hv.2
  case h_3 hn hc =>
    cases h
    refine ⟨(Value.isBuilt_group_iff hv).mpr ?_, by simp⟩
    cases v
    case list separator items =>
      cases separator
      case space => rfl
      case comma => cases items <;> simp_all
    all_goals rfl

theorem isBuilt_sized_iff {size : Value} {lineHeight : Option Value}
    (hs : Value.isBuilt .whole size) (hl : ∀ v ∈ lineHeight, Value.isBuilt .whole v) :
    Value.isBuilt .word (sized size lineHeight) ↔
      size.isList = false ∧ ∀ v ∈ lineHeight, v.isList = false ∧ v.isPair = false := by
  cases lineHeight
  case none => simpa [sized] using Value.isBuilt_word_iff hs
  case some lineHeight =>
    simp only [sized, Value.isBuilt, Bool.and_eq_true, Value.isBuilt_word_iff hs,
      Value.isBuilt_component_iff (hl lineHeight rfl), Option.mem_some_iff, forall_eq']

theorem isBuilt_value?_iff (hl : l.AreBuilt) (h : value? l = some v) :
    Value.isBuilt .whole v ↔ IsFlat l := by
  obtain ⟨size, family, first, fallbacks, hsize, hfamily, hsplit, rfl⟩ := value?_eq h
  obtain ⟨hfirst, hfallbacks⟩ := isBuilt_splitFallbacks? hsplit (hl _ _ hfamily)
  have hsaid {n : String} : ∀ v ∈ l.said n "normal", Value.isBuilt .whole v := fun v hv =>
    hl _ _ (Longhands.of_mem_said (Option.mem_toList.mpr hv)).1
  have hmodifier (n : String) : (∀ v ∈ (l.said n "normal").toList, Value.isBuilt .word v) ↔
      ∀ v ∈ l.said n "normal", v.isList = false := by
    simp only [Option.mem_toList]
    exact forall₂_congr fun v hv => Value.isBuilt_word_iff (hsaid v hv)
  have hfamilies : ∀ v ∈ first.components, Value.isBuilt .word v := fun v hv =>
    Value.isBuilt_of_mem_components hfirst hv
  have hne : 2 ≤ ((l.said "font-style" "normal").toList ++
      (l.said "font-variant" "normal").toList ++ (l.said "font-weight" "normal").toList ++
      sized size (l.said "line-height" "normal") :: first.components).length := by
    have hc : first.components ≠ [] := by
      unfold Value.components
      split
      case h_1 items =>
        simp only [Value.isBuilt, Bool.and_eq_true, decide_eq_true_eq] at hfirst
        exact List.ne_nil_of_length_pos (by omega)
      case h_2 => simp
    have := List.length_pos_iff.mpr hc
    simp only [List.length_append, List.length_cons]
    omega
  rw [withFallbacks, Value.isBuilt_commaList_iff hfallbacks ?_, Value.isBuilt_spaceList_iff hne]
  · simp only [List.forall_mem_append, List.forall_mem_cons, hmodifier,
      isBuilt_sized_iff (hl _ _ hsize) hsaid]
    constructor
    case mp =>
      rintro ⟨⟨⟨hs, hv⟩, hw⟩, ⟨hz, hh⟩, -⟩
      exact ⟨by simpa using ⟨hs, hv, hw⟩, by simpa [hsize] using hz, hh⟩
    case mpr =>
      rintro ⟨hm, hz, hh⟩
      simp only [List.forall_mem_cons] at hm
      exact ⟨⟨⟨hm.1, hm.2.1⟩, hm.2.2.1⟩, ⟨hz size hsize, hh⟩, hfamilies⟩
  · exact Value.isCommaList_spaceList_of_length hne

end Font

/-! ### All shorthands -/

def RuleSet.AreBuilt (rs : RuleSet) : Prop :=
  ∀ r ∈ rs, Value.isBuilt .whole r.value

namespace Creation

variable {c : Creation} {cs : List Creation} {rs : RuleSet} {r : Rule} {l : Longhands} {v : Value}
  {next : RuleId}

theorem areBuilt_of_made? (h : c.made? rs = some (l, v)) (hr : rs.AreBuilt) : l.AreBuilt := by
  intro n w hw
  rw [(of_made? h).2.2.2 n, Option.map_eq_some_iff] at hw
  obtain ⟨d, hd, rfl⟩ := hw
  obtain ⟨r, hrs, rfl⟩ := List.mem_map.mp (mem_of_mem_taken (Declaration.mem_of_last? hd))
  exact hr r hrs

-- A creation adds one value to those that there were.
theorem areBuilt_create_iff (h : rs.AreBuilt) : RuleSet.AreBuilt ((c.create rs).run next).1 ↔
    ∀ l v, c.made? rs = some (l, v) → Value.isBuilt .whole v := by
  cases hm : c.made? rs
  case none =>
    rw [create_of_made?_none hm]
    exact iff_of_true h nofun
  case some made =>
    obtain ⟨l, v⟩ := made
    rw [create_of_made? hm]
    constructor
    case mp =>
      rintro hall _ _ ⟨⟩
      exact hall _ (RuleSet.mem_replaceWhere.mpr (.inl rfl))
    case mpr =>
      intro hv r hr
      rcases RuleSet.mem_replaceWhere.mp hr with rfl | ⟨hr, -⟩
      · exact hv l v rfl
      · exact h r hr

theorem areBuilt_createEach
    (hc : ∀ c ∈ cs, ∀ l v, c.value? l = some v → l.AreBuilt → Value.isBuilt .whole v)
    (h : rs.AreBuilt) : RuleSet.AreBuilt ((createEach cs rs).run next).1 := by
  induction cs generalizing rs next
  case nil => exact h
  case cons c cs ih =>
    obtain ⟨hcc, hcs⟩ := List.forall_mem_cons.mp hc
    refine ih hcs ((areBuilt_create_iff h).mpr fun l v hm => ?_)
    exact hcc l v (of_made? hm).1 (areBuilt_of_made? hm h)

-- What no creation takes in stays.
theorem mem_create (hr : r ∈ rs) (hn : r.name ∉ c.names) : r ∈ ((c.create rs).run next).1 := by
  cases hm : c.made? rs
  case none => rwa [create_of_made?_none hm]
  case some made =>
    rw [create_of_made? hm]
    exact RuleSet.mem_replaceWhere.mpr (.inr ⟨hr, by simpa using hn⟩)

theorem mem_createEach (hr : r ∈ rs) (hn : ∀ c ∈ cs, r.name ∉ c.names) :
    r ∈ ((createEach cs rs).run next).1 := by
  induction cs generalizing rs next
  case nil => exact hr
  case cons c cs ih =>
    obtain ⟨hc, hcs⟩ := List.forall_mem_cons.mp hn
    exact ih (mem_create hr hc) hcs

-- Shorthands of sides and borders refuse lists.
theorem isBuilt_spaceList_of_not_isList {vs : List Value} (hn : vs ≠ [])
    (h : ∀ v ∈ vs, Value.isBuilt .whole v ∧ v.isList = false) :
    Value.isBuilt .whole (.spaceList vs) :=
  Value.isBuilt_spaceList hn fun v hv => (Value.isBuilt_word_iff (h v hv).1).mpr (h v hv).2

theorem isBuilt_sides {family : String} (hv : (sides family).value? l = some v)
    (hl : l.AreBuilt) : Value.isBuilt .whole v := by
  simp only [sides, Sides.value?, bind, Option.bind_eq_some_iff] at hv
  obtain ⟨top, ht, right, hr, bottom, hb, left, hleft, hv⟩ := hv
  simp only [Option.ite_none_left_eq_some, Bool.not_eq_true, Option.some.injEq] at hv
  obtain ⟨ha, _, rfl⟩ := hv
  have hor {n : String} {w : Value} (hw : l.value? n = some w) :
      Value.isBuilt .whole w ∧ w.isList = false :=
    ⟨hl _ _ hw, Longhands.not_of_any ha hw⟩
  refine isBuilt_spaceList_of_not_isList (Sides.minimal_ne_nil _) fun w hw => ?_
  have := Sides.mem_of_mem_minimal hw
  simp only [Sides.toList, List.mem_cons, List.not_mem_nil, or_false] at this
  rcases this with rfl | rfl | rfl | rfl
  exacts [hor ht, hor hr, hor hb, hor hleft]

theorem areBuilt_createBorder (h : rs.AreBuilt) :
    RuleSet.AreBuilt ((border.create rs).run next).1 := by
  refine (areBuilt_create_iff h).mpr fun l v hm => ?_
  have hl := areBuilt_of_made? hm h
  obtain ⟨hv, hfirst, -, hval⟩ := of_made? hm
  simp only [border, Border.value?, Option.ite_none_left_eq_some, Bool.not_eq_true,
    Option.some.injEq] at hv
  obtain ⟨ha, rfl⟩ := hv
  refine isBuilt_spaceList_of_not_isList (fun hnil => ?_) fun w hw => ?_
  -- There is a part at all, since its rule is the first one.
  · have := List.filterMap_eq_nil_iff.mp hnil _ (name_of_mem_taken hfirst)
    rw [hval, Option.map_eq_none_iff, Declaration.last?_eq_none_iff] at this
    exact this _ hfirst rfl
  · obtain ⟨n, -, hn⟩ := List.mem_filterMap.mp hw
    have := Longhands.not_of_any ha hn
    simp only [Bool.or_eq_false_iff] at this
    exact ⟨hl _ _ hn, this.1⟩

theorem made?_isFlat_iff {isFlat : Longhands → Prop} (h : rs.AreBuilt)
    (hc : ∀ {l v}, l.AreBuilt → c.value? l = some v → (Value.isBuilt .whole v ↔ isFlat l)) :
    (∀ l v, c.made? rs = some (l, v) → Value.isBuilt .whole v) ↔
      ∀ l v, c.made? rs = some (l, v) → isFlat l :=
  forall₃_congr fun _ _ hm => hc (areBuilt_of_made? hm h) (of_made? hm).1

-- The creations between those of backgrounds and of fonts.
def middle : List Creation :=
  Sides.families.map sides ++ [border]

theorem run_createEach_singleton (c : Creation) (rs : RuleSet) (next : RuleId) :
    (createEach [c] rs).run next = (c.create rs).run next :=
  rfl

theorem run_createAll (rs : RuleSet) (next : RuleId) :
    let s := (createEach (background :: middle) rs).run next
    rs.createAll.run next = (font.create s.1).run s.2 := by
  have hall : all = background :: middle ++ [font] := rfl
  rw [← createEach_all, hall, createEach_append, run_createEach_singleton]

theorem areBuilt_createEach_middle (h : rs.AreBuilt) :
    RuleSet.AreBuilt ((createEach middle rs).run next).1 := by
  rw [middle, createEach_append]
  refine areBuilt_createBorder (areBuilt_createEach ?_ h)
  simp only [List.forall_mem_map]
  exact fun _ _ _ _ hv hl => isBuilt_sides hv hl

end Creation

namespace RuleSet

open Creation

variable {rs : RuleSet}

-- All values that there are when shorthands are created from values built in levels are so, too,
-- exactly if no list comes to stand inside another one or in a pair.
theorem isBuilt_createAll_iff (h : rs.AreBuilt) (next : RuleId) :
    (∀ r ∈ (rs.createAll.run next).1, Value.isBuilt .whole r.value) ↔
      (∀ l v, background.made? rs = some (l, v) → Background.IsFlat l) ∧
        ∀ l v, font.made? rs = some (l, v) → Font.IsFlat l := by
  let s₁ := (background.create rs).run next
  let s₂ := (createEach (background :: middle) rs).run next
  have hs₂ : s₂ = (createEach middle s₁.1).run s₁.2 := run_createEach_cons ..
  have hbackground : RuleSet.AreBuilt s₁.1 ↔
      ∀ l v, background.made? rs = some (l, v) → Background.IsFlat l :=
    (areBuilt_create_iff h).trans (made?_isFlat_iff h Background.isBuilt_value?_iff)
  -- The creations in front of that of fonts do not change what it is made of.
  have hmade : font.made? s₂.1 = font.made? rs :=
    @made?_createEach_of_keepsParts font (background :: middle) rs next (by decide)
  have hfont (hs : RuleSet.AreBuilt s₁.1) : RuleSet.AreBuilt ((font.create s₂.1).run s₂.2).1 ↔
      ∀ l v, font.made? rs = some (l, v) → Font.IsFlat l := by
    have hs' : RuleSet.AreBuilt s₂.1 := hs₂ ▸ areBuilt_createEach_middle hs
    rw [areBuilt_create_iff hs', made?_isFlat_iff hs' Font.isBuilt_value?_iff, hmade]
  rw [run_createAll]
  constructor
  case mp =>
    intro hbuilt
    -- A background is taken in by none of the other creations.
    have hmiddle : ∀ c ∈ middle, "background" ∉ c.names := by decide
    have hs : RuleSet.AreBuilt s₁.1 := by
      refine (areBuilt_create_iff h).mpr fun l v hm => ?_
      have hnew : (⟨l.first.derive "background" v, next⟩ : Rule) ∈ s₁.1 := by
        have hs₁ : s₁ = _ := create_of_made? hm
        rw [hs₁]
        exact RuleSet.mem_replaceWhere.mpr (.inl rfl)
      have hkept := @mem_createEach middle _ _ s₁.2 hnew hmiddle
      have hfont : "background" ∉ font.names := by decide
      exact hbuilt _ (mem_create (hs₂ ▸ hkept) hfont)
    exact ⟨hbackground.mp hs, (hfont hs).mp hbuilt⟩
  case mpr =>
    rintro ⟨hb, hf⟩
    have hs := hbackground.mpr hb
    exact (hfont hs).mpr hf

def withFamilies : RuleSet :=
  [{ name := "font-style", value := .keyword "italic", id := 0 },
   { name := "font-size", value := .keyword "medium", id := 1 },
   { name := "font-family", value := .list .comma [.keyword "Georgia", .keyword "serif"], id := 2 }]

-- A list of families does not come to stand in another list: it takes the other parts in.
theorem isBuilt_createAll_withFamilies :
    withFamilies.AreBuilt ∧
      (withFamilies.createAll.run 3).1.map (·.value) =
        [.list .comma [.list .space [.keyword "italic", .keyword "medium", .keyword "Georgia"],
          .keyword "serif"]] ∧
      ∀ r ∈ (withFamilies.createAll.run 3).1, Value.isBuilt .whole r.value := by
  have hbuilt : withFamilies.AreBuilt := by
    simp only [AreBuilt, withFamilies, List.forall_mem_cons]
    exact ⟨rfl, rfl, rfl, by simp⟩
  refine ⟨hbuilt, rfl, (isBuilt_createAll_iff hbuilt 3).mpr ⟨fun l v hm => ?_, fun l v hm => ?_⟩⟩
  · have : background.made? withFamilies = none := rfl
    rw [this] at hm
    cases hm
  · obtain ⟨-, -, -, hl⟩ := of_made? hm
    have hvalue (n : String) (h : n ∈ ["font-style", "font-variant", "font-weight", "font-size",
        "line-height"]) : ∀ w ∈ l.value? n, w.isList = false ∧ w.isPair = false := by
      rw [hl]
      simp only [List.mem_cons, List.not_mem_nil, or_false] at h
      rcases h with rfl | rfl | rfl | rfl | rfl <;> decide
    have hsaid (n : String) (h : n ∈ ["font-style", "font-variant", "font-weight", "font-size",
        "line-height"]) : ∀ w ∈ l.said n "normal", w.isList = false ∧ w.isPair = false :=
      fun w hw => hvalue n h w (Longhands.of_mem_said (Option.mem_toList.mpr hw)).1
    exact ⟨fun n hn w hw => (hsaid n (List.mem_append_left _ hn) w hw).1,
      fun w hw => (hvalue _ (by simp) w hw).1, hsaid _ (by simp)⟩

-- An angle behind the style.
def slanted : RuleSet :=
  [{ name := "font-style", id := 0,
     value := .list .space [.keyword "oblique", .size ⟨.ofNat 10, some "deg"⟩] },
   { name := "font-size", value := .keyword "medium", id := 1 },
   { name := "font-family", value := .keyword "serif", id := 2 }]

-- A repetition for each direction.
def tiled : RuleSet :=
  [{ name := "background-color", value := .keyword "red", id := 0 },
   { name := "background-repeat", id := 1,
     value := .list .space [.keyword "repeat", .keyword "no-repeat"] }]

theorem createAll_not_built :
    (slanted.AreBuilt ∧ ¬RuleSet.AreBuilt (slanted.createAll.run 3).1) ∧
      tiled.AreBuilt ∧ ¬RuleSet.AreBuilt (tiled.createAll.run 3).1 := by
  simp only [AreBuilt]
  decide

end RuleSet
end Stylesheet
