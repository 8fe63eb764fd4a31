import Stylesheet.Proofs.Shorthand.Built
import Stylesheet.Proofs.Shorthand.Merged
import Stylesheet.Proofs.Shorthand.NormalForm
import Stylesheet.Proofs.Value.Lowered
/-!
Expanding what was created from what was expanded. Creating a shorthand leaves out what expanding
it fills in, and puts the parts in the order in which expanding it finds them; so the same parts
come back, but for the letter case of words that were left out. Main statement:
`RuleSet.Family.expand_create_expand`.
-/

namespace Stylesheet

open Declaration

/-! ### Declarations that are alike -/

theorem Value.Agrees.lowered {v w : Value} (h : v.Agrees w) : v.lowered.Agrees w.lowered := by
  rcases h with rfl | h
  · exact .inl rfl
  · exact .inr (same_lowered h)

-- The value of a property, where two offsets of nothing are the initial position of a background.
def Value.identified (name : String) (v : Value) : Value :=
  if name = "background-position" ∧ Background.isInitialPosition v then Background.initialPosition
  else v

-- Declarations that differ in the letter case of keywords at most, wherever they stand.
structure Declaration.Alike (d e : Declaration) : Prop where
  name : e.name = d.name
  important : e.important = d.important
  value : (d.value.identified d.name).lowered.Agrees (e.value.identified d.name).lowered

namespace Declaration.Alike

variable {d e : Declaration} {ds es : List Declaration} {names : List String} {vs ws : List Value}

theorem refl (d : Declaration) : d.Alike d :=
  ⟨rfl, rfl, .inl rfl⟩

instance : Std.Refl Alike :=
  ⟨refl⟩

theorem of_lowered {name : String} {v w : Value} (hi : e.important = d.important)
    (hn : name ≠ "background-position") (h : v.lowered.Agrees w.lowered) :
    (d.derive name v).Alike (e.derive name w) := by
  refine ⟨rfl, hi, ?_⟩
  simpa [Value.identified, derive, hn] using h

theorem zipWith (hi : e.important = d.important) (hn : "background-position" ∉ names)
    (h : List.Forall₂ (fun v w : Value => v.lowered.Agrees w.lowered) vs ws) :
    List.Forall₂ Alike (List.zipWith d.derive names vs) (List.zipWith e.derive names ws) := by
  induction names generalizing vs ws
  case nil => exact .nil
  case cons name names ih =>
    cases h
    case nil => exact .nil
    case cons hv hvs =>
      obtain ⟨hname, hnames⟩ := not_or.mp (fun hm => hn (List.mem_cons.mpr hm))
      exact .cons (of_lowered hi (Ne.symm hname) hv) (ih hnames hvs)

end Declaration.Alike

/-! ### Parts of one declaration -/

namespace Creation

variable {c : Creation} {cs : List Creation} {d : Declaration} {ds front back : List Declaration}
  {rs : RuleSet} {next : RuleId} {expand? : Declaration → Option (List Declaration)}

theorem createEach_of_taken_eq_nil (h : ∀ c ∈ cs, c.taken rs.declarations = []) :
    (createEach cs rs).run next = (rs, next) := by
  induction cs
  case nil => rfl
  case cons c cs ih =>
    obtain ⟨hc, hcs⟩ := List.forall_mem_cons.mp h
    rw [run_createEach_cons, create_of_taken_eq_nil hc]
    exact ih hcs

theorem AreApart.not_takes (hcs : AreApart cs) (hc : c ∈ cs) {c' : Creation} (hc' : c' ∈ cs)
    (hne : c'.shorthand ≠ c.shorthand) (hd : c.takes d) : c'.takes d = false := by
  simp only [takes, List.contains_eq_mem, decide_eq_true_eq, decide_eq_false_iff_not] at hd ⊢
  exact fun hd' => hne (hcs.names c' hc' c hc d.name hd' hd)

-- The parts of one creation, or what they are made to, are nothing for the others.
theorem AreApart.taken_eq_nil_of_parts (hcs : AreApart cs) (hc : c ∈ cs) {c' : Creation}
    (hc' : c' ∈ cs) (hne : c'.shorthand ≠ c.shorthand) (hparts : ∀ e ∈ ds, c.takes e)
    (hothers : ∀ e ∈ front ++ back, c'.takes e = false) (made : Option Value) :
    c'.taken (made.elim (front ++ (ds ++ back)) fun v => front ++ d.derive c.shorthand v :: back) =
      [] := by
  obtain ⟨hfront, hback⟩ := List.forall_mem_append.mp hothers
  refine taken_eq_nil fun e he => ?_
  cases made
  case none =>
    simp only [Option.elim_none, List.mem_append] at he
    rcases he with he | he | he
    · exact hfront e he
    · exact hcs.not_takes hc hc' hne (hparts e he)
    · exact hback e he
  case some v =>
    simp only [Option.elim_some, List.mem_append, List.mem_cons] at he
    rcases he with he | rfl | he
    · exact hfront e he
    · simpa [takes, derive] using hcs.shorthands c hc c' hc'
    · exact hback e he

-- One creation finds its parts, and the others none.
theorem declarations_createEach_of_parts (hcs : AreApart cs) (hc : c ∈ cs) {i : Bool}
    (hparts : ∀ e ∈ d :: ds, c.takes e) (hi : ∀ e ∈ d :: ds, e.important = i)
    (hothers : ∀ e ∈ front ++ back, ∀ c ∈ cs, c.takes e = false)
    (hrs : rs.declarations = front ++ (d :: ds ++ back)) :
    ∃ l : Longhands, l.Say (d :: ds) ∧ RuleSet.declarations ((createEach cs rs).run next).1 =
      (c.value? l).elim rs.declarations fun v => front ++ d.derive c.shorthand v :: back := by
  induction cs generalizing rs next
  case nil => cases hc
  case cons c' cs ih =>
    obtain ⟨hfresh, -⟩ := List.nodup_cons.mp hcs.nodup
    have hself := fun e he => hothers e he c' List.mem_cons_self
    have hrest := fun e he c hc => hothers e he c (List.mem_cons_of_mem _ hc)
    rw [run_createEach_cons]
    rcases List.mem_cons.mp hc with rfl | hmem
    · obtain ⟨hfront, hback⟩ := List.forall_mem_append.mp hself
      obtain ⟨l, hsay, hcreate⟩ :=
        @declarations_create_of_parts c d ds front back rs next i hparts hi hfront hback hrs
      refine ⟨l, hsay, ?_⟩
      rw [createEach_of_taken_eq_nil, hcreate]
      intro c' hc'
      rw [hcreate, hrs]
      exact hcs.taken_eq_nil_of_parts hc (List.mem_cons_of_mem _ hc')
        (fun he => hfresh (he ▸ List.mem_map_of_mem hc')) hparts (fun e he => hrest e he c' hc') _
    · have htaken : c'.taken rs.declarations = [] :=
        hrs ▸ @AreApart.taken_eq_nil_of_parts c (c' :: cs) d (d :: ds) front back hcs hc c'
          List.mem_cons_self (fun he => hfresh (he ▸ List.mem_map_of_mem hmem)) hparts hself none
      rw [create_of_taken_eq_nil htaken]
      exact ih hcs.tail hmem hrest hrs

-- What the parts of a declaration are made to is expanded to parts like them.
def Regains (c : Creation) (expand? : Declaration → Option (List Declaration)) (d : Declaration)
    (ds : List Declaration) : Prop :=
  ∀ l : Longhands, l.Say ds → ∀ v, c.value? l = some v →
    ∃ es, expand? (d.derive c.shorthand v) = some es ∧ List.Forall₂ Alike ds es

theorem Regains.alike (h : c.Regains expand? d ds) (hcs : AreApart cs) (hc : c ∈ cs)
    (hin : IsInherited expand?) (hds : expand? d = some ds)
    (hparts : ∀ e ∈ ds, c.takes e ∧ expand? e = none)
    (hothers : ∀ e ∈ front ++ back, expand? e = none ∧ ∀ c ∈ cs, c.takes e = false)
    (hrs : rs.declarations = front ++ (ds ++ back)) :
    List.Forall₂ Alike rs.declarations
      ((RuleSet.declarations ((createEach cs rs).run next).1).flatMap (expandBy expand?)) := by
  have hapart : ∀ e ∈ front ++ back, ∀ c ∈ cs, c.takes e = false := fun e he => (hothers e he).2
  obtain ⟨hfront, hback⟩ := List.forall_mem_append.mp fun e he => (hothers e he).1
  -- If all stay, they stay when they are expanded, too.
  have hstay : rs.declarations.flatMap (expandBy expand?) = rs.declarations := by
    refine hrs ▸ flatMap_expandBy fun e he => ?_
    simp only [List.mem_append] at he
    rcases he with he | he | he
    exacts [hfront e he, (hparts e he).2, hback e he]
  cases ds
  case nil =>
    rw [createEach_of_taken_eq_nil, hstay]
    · exact List.forall₂_refl _
    · exact fun c hc => hrs ▸ taken_eq_nil fun e he => hapart e he c hc
  case cons e es =>
    have hinherits : ∀ f ∈ e :: es, d.Inherits f := hin d _ hds
    obtain ⟨l, hsay, hcreate⟩ := @declarations_createEach_of_parts c cs e es front back rs next hcs
      hc d.important (fun f hf => (hparts f hf).1) (fun f hf => (hinherits f hf).important) hapart
      hrs
    rw [hcreate]
    cases hv : c.value? l
    case none =>
      rw [Option.elim_none, hstay]
      exact List.forall₂_refl _
    case some v =>
      obtain ⟨fs, hfs, halike⟩ := h l hsay v hv
      have hderive : e.derive c.shorthand v = d.derive c.shorthand v := by
        obtain ⟨hi, hp⟩ := hinherits e List.mem_cons_self
        simp [derive, hi, hp]
      rw [Option.elim_some, hderive, List.flatMap_append, List.flatMap_cons,
        flatMap_expandBy hfront, flatMap_expandBy hback, expandBy_of_some hfs, hrs]
      exact List.rel_append (List.forall₂_refl _) (List.rel_append halike (List.forall₂_refl _))

theorem Regains.of_collapses {v : Value} (h : c.Collapses (d.derive c.shorthand v) ds)
    (hds : expand? (d.derive c.shorthand v) = some ds) : c.Regains expand? d ds := by
  intro l hsay w hw
  obtain rfl : v = w := by simpa [h.value? l hsay, derive] using hw
  exact ⟨ds, hds, List.forall₂_refl ds⟩

end Creation

/-! ### The shorthands -/

namespace Border

variable {d : Declaration} {ds : List Declaration}

-- A border is expanded as the one that has nothing but its width, its style and its color.
theorem regains (hn : d.name = "border") (h : expand? d = some ds) :
    (∀ e ∈ ds, Creation.border.takes e) ∧ Creation.border.Regains expand? d ds := by
  let said (a : Aspect) := d.value.components.find? (aspectOf? · == some a)
  simp only [expand?, Option.ite_none_left_eq_some, Option.some.injEq] at h
  obtain ⟨-, hne, hds⟩ := h
  have hsaid : aspects.filterMap said ≠ [] := by
    intro hnil
    refine hne ?_
    rw [List.isEmpty_iff, List.filterMap_eq_nil_iff]
    intro a ha
    exact Option.map_eq_none_iff.mpr (List.filterMap_eq_nil_iff.mp hnil a ha)
  let b : Normal :=
    { said
      aspectOf? := fun a v hv => by simpa using List.find?_some hv
      ne_nil := hsaid }
  have hparts : ds = partsOf (d.derive "border" b.value) b.value? := by
    rw [← hds, hn, partsOf, longhands, List.filterMap_map]
    refine List.filterMap_congr fun a _ => ?_
    simp only [Function.comp_apply, b.value?_name]
    rfl
  have hexpand := b.expand? (d := d.derive "border" b.value) rfl rfl
  have hcollapses := b.collapses (d := d.derive "border" b.value) rfl rfl
  rw [expandBy_of_some hexpand, ← hparts] at hcollapses
  exact ⟨hcollapses.takes, .of_collapses hcollapses (hparts ▸ hexpand)⟩

end Border

namespace Sides

variable {d : Declaration} {ds : List Declaration}

theorem regains (hn : d.name ∈ families) (h : expand? d = some ds) :
    (∀ e ∈ ds, (Creation.sides d.name).takes e) ∧ (Creation.sides d.name).Regains expand? d ds := by
  simp only [expand?, Option.ite_none_left_eq_some, Option.map_eq_some_iff] at h
  obtain ⟨-, sides, -, rfl⟩ := h
  refine ⟨fun _ => Creation.takes_of_mem_zipWith (c := Creation.sides d.name), fun l hl v hv => ?_⟩
  have hl := Creation.Holds.of_say (c := Creation.sides d.name) (nodup_longhands _ hn) hl
  obtain ⟨htop, hright, hbottom, hleft⟩ := value?_of_holds hn hl
  simp only [Creation.sides, value?, htop, hright, hbottom, hleft, bind, Option.bind_some,
    Option.ite_none_left_eq_some, Bool.not_eq_true, Option.some.injEq] at hv
  obtain ⟨hany, -, rfl⟩ := hv
  have hlist : ∀ w ∈ sides.toList, w.isList = false := by
    simp only [toList, List.forall_mem_cons, List.not_mem_nil, false_implies, implies_true,
      and_true]
    exact ⟨l.not_of_any hany htop, l.not_of_any hany hright, l.not_of_any hany hbottom,
      l.not_of_any hany hleft⟩
  obtain ⟨t, hexpand, htop, hright, hbottom, hleft⟩ := @expand?_minimal d d.name sides hn hlist
  refine ⟨_, hexpand, Alike.zipWith rfl ?_ ?_⟩
  · exact (by decide : ∀ family ∈ families, "background-position" ∉ longhands family) _ hn
  · exact .cons htop.lowered (.cons hright.lowered (.cons hbottom.lowered
      (.cons hleft.lowered .nil)))

end Sides

-- What need not be said is what it is without it.
theorem Longhands.lowered_said {l : Longhands} {name initial : String} {w : Value}
    (h : l.value? name = some w) :
    w.lowered = ((l.said name initial).getD (.keyword initial)).lowered := by
  by_cases hi : w.isKeyword initial
  · have hn : l.said name initial = none := by simp [said, h, hi]
    rw [hn, Option.getD_none, Value.lowered_of_isKeyword hi]
  · have hs : l.said name initial = some w := by simp [said, h, hi]
    rw [hs, Option.getD_some]

namespace Background

variable {d : Declaration} {ds : List Declaration} {vs : List Value} {p : Value}

theorem aspectOf?_first {a : Aspect} {initial : String}
    (h : aspectOf? (.keyword initial) = some a) :
    aspectOf? ((vs.find? (aspectOf? · == some a)).getD (.keyword initial)) = some a := by
  cases hv : vs.find? (aspectOf? · == some a)
  case none => exact h
  case some v => simpa using List.find?_some hv

theorem aspectOf?_of_positionOf (h : ∀ v ∈ vs, aspectOf? v = some .position) :
    ∀ v ∈ (positionOf vs).components, aspectOf? v = some .position := by
  match vs with
  | [] => decide +kernel
  | [v] => simpa [positionOf, Value.spaceList, Value.join, Value.components] using h
  | _ :: _ :: _ => exact h

theorem two_le_length_positionOf : 2 ≤ (positionOf vs).components.length := by
  match vs with
  | [] => decide
  | [v] => exact Nat.le_refl 2
  | v :: w :: vs => exact Nat.le_add_left 2 vs.length

-- A position comes back: the center in small letters, and two offsets of nothing as percentages.
theorem lowered_positionParts (h : 2 ≤ p.components.length) :
    (p.identified "background-position").lowered =
      ((positionOf (positionParts p)).identified "background-position").lowered := by
  have hp := eq_list_components h
  unfold positionParts
  split
  case isTrue hi =>
    rw [Value.identified, if_pos ⟨rfl, hi⟩]
    rfl
  case isFalse hi =>
    split
    case h_1 first second he =>
      rw [he] at hp
      split
      case isTrue hc =>
        rw [Bool.and_eq_true] at hc
        have hlowered : p.lowered = .list .space [first.lowered, second.lowered] := by
          rw [hp]
          rfl
        rw [Value.identified, if_neg fun ⟨_, hinitial⟩ => hi hinitial, hlowered,
          Value.lowered_of_isKeyword hc.1, Value.lowered_of_isKeyword hc.2]
        rfl
      case isFalse => rw [hp]; rfl
    case h_2 => rw [positionOf_of_length h, ← hp]

-- What a background is expanded to is proper, and its position has two components or more.
theorem exists_of_expand? (h : expand? d = some ds) :
    ∃ color image repetition attachment position, ds = List.zipWith d.derive longhands
        [color, image, repetition, attachment, position] ∧
      aspectOf? color = some .color ∧ aspectOf? image = some .image ∧
      aspectOf? repetition = some .repetition ∧ aspectOf? attachment = some .attachment ∧
      (∀ v ∈ position.components, aspectOf? v = some .position) ∧
      2 ≤ position.components.length := by
  simp only [expand?, Option.ite_none_left_eq_some, Option.some.injEq] at h
  obtain ⟨-, -, hds⟩ := h
  obtain ⟨hcolor, himage, hrepetition, hattachment, -⟩ := aspectOf?_initial
  refine ⟨_, _, _, _, _, hds.symm, aspectOf?_first hcolor, aspectOf?_first himage,
    aspectOf?_first hrepetition, aspectOf?_first hattachment,
    aspectOf?_of_positionOf fun v hv => ?_, two_le_length_positionOf⟩
  simpa using (List.mem_filter.mp hv).2

theorem regains (h : expand? d = some ds) :
    (∀ e ∈ ds, Creation.background.takes e) ∧ Creation.background.Regains expand? d ds := by
  obtain ⟨color, image, repetition, attachment, position, rfl, hc, hi, hr, ha, hp, hlength⟩ :=
    exists_of_expand? h
  refine ⟨fun _ => Creation.takes_of_mem_zipWith (c := Creation.background), fun l hl v hv => ?_⟩
  have hl := Creation.Holds.of_say (c := Creation.background) (by decide) hl
  have hcolor : l.value? "background-color" = some color := hl.value? _
  have himage : l.value? "background-image" = some image := hl.value? _
  have hrepetition : l.value? "background-repeat" = some repetition := hl.value? _
  have hattachment : l.value? "background-attachment" = some attachment := hl.value? _
  have hposition : l.value? "background-position" = some position := hl.value? _
  have hproper : Creation.background.proper l := by
    simpa [Creation.background, hcolor, himage, hrepetition, hattachment, hposition, hc, hi, hr, ha]
      using hp
  refine ⟨_, Creation.expand?_background_of_proper rfl hproper hv, ?_⟩
  refine .cons ?_ (.cons ?_ (.cons ?_ (.cons ?_ (.cons ⟨rfl, rfl, ?_⟩ .nil))))
  · exact .of_lowered rfl (by decide) (.inl (by rw [hcolor, Option.getD_some]))
  · exact .of_lowered rfl (by decide) (.inl (l.lowered_said himage))
  · exact .of_lowered rfl (by decide) (.inl (l.lowered_said hrepetition))
  · exact .of_lowered rfl (by decide) (.inl (l.lowered_said hattachment))
  · refine .inl ((lowered_positionParts hlength).trans ?_)
    rw [hposition]
    simp [derive]

end Background

-- A number that is read as a weight in front of a size.
def Value.isBareWeight : Value → Bool
  | size s => s.unit.isNone && s.value.isBetween 100 900
  | _ => false

namespace Font

-- The parts that a font is read as.
structure Parts where
  style : Option Value
  variant : Option Value
  weight : Option Value
  size : Value
  lineHeight : Value
  family : List Value
  fallbacks : List Value
  isFontStyle : ∀ v ∈ style, v.isFontStyle
  isFontVariant : ∀ v ∈ variant, v.isFontVariant
  isFontWeight : ∀ v ∈ weight, v.isFontWeight
  isFontSize : size.isFontSize
  family_ne_nil : family ≠ []
  isList : ∀ v ∈ family, v.isList = false

def Parts.values (p : Parts) : List Value :=
  [p.style.getD normal, p.variant.getD normal, p.weight.getD normal, p.size, p.lineHeight,
    withFallbacks p.family p.fallbacks]

variable {d : Declaration} {ds : List Declaration} {v : Value} {values : List Value}

theorem isFontSize_splitSize (h : isSizePart v) : (splitSize v).1.isFontSize := by
  cases v
  case pair => exact h
  all_goals simp_all [isSizePart, splitSize]

theorem exists_of_parts? (hb : Value.isBuilt .whole v) (h : parts? v = some values) :
    ∃ p : Parts, values = p.values := by
  simp only [parts?, bind, Option.bind_eq_some_iff] at h
  obtain ⟨⟨head, fallbacks⟩, hsplit, h⟩ := h
  obtain ⟨hhead, -⟩ := isBuilt_splitFallbacks? hsplit hb
  dsimp only at h
  split at h
  case h_2 => cases h
  case h_1 part family hd =>
    simp only [Option.ite_none_left_eq_some, Option.some.injEq] at h
    obtain ⟨hf, rfl⟩ := h
    have hpart : isSizePart part := by
      have := List.head?_dropWhile_not (!isSizePart ·) head.components
      simpa [hd] using this
    refine ⟨{
      style := _, variant := _, weight := _, size := _, lineHeight := _, family := family, fallbacks
      isFontStyle := fun v hv => List.find?_some hv
      isFontVariant := fun v hv => List.find?_some hv
      isFontWeight := fun v hv => List.find?_some hv
      isFontSize := isFontSize_splitSize hpart
      family_ne_nil := by simpa using hf
      isList := fun v hv => ?_ }, rfl⟩
    have hmem : v ∈ head.components :=
      (List.dropWhile_suffix _).subset (hd ▸ List.mem_cons_of_mem _ hv)
    have hword := Value.isBuilt_of_mem_components hhead hmem
    exact (Value.isBuilt_word_iff (Value.isBuilt_whole_of_word hword)).mp hword

theorem not_isModifier_of_not_isBareWeight (h : v.isFontSize) (hb : v.isBareWeight = false) :
    isModifier v = false := by
  rw [isModifier_of_isFontSize h]
  cases v
  case size => exact hb
  case keyword word =>
    exact @Value.not_isKeywordOf Keyword.fontSizes Keyword.fontWeights (by decide) (.keyword word) h
  all_goals cases h

theorem isProper_getD {isOfKind : Value → Bool} {o : Option Value} (h : ∀ v ∈ o, isOfKind v) :
    isProper isOfKind (o.getD normal) := by
  cases o
  case none => rfl
  case some v => simp [isProper, h v rfl]

theorem regains (hb : Value.isBuilt .whole d.value)
    (hw : ∀ e ∈ ds, e.name = "font-size" → e.value.isBareWeight = false)
    (h : expand? d = some ds) :
    (∀ e ∈ ds, Creation.font.takes e) ∧ Creation.font.Regains expand? d ds := by
  simp only [expand?, Option.ite_none_left_eq_some, Option.map_eq_some_iff] at h
  obtain ⟨-, values, hvalues, rfl⟩ := h
  obtain ⟨p, rfl⟩ := exists_of_parts? hb hvalues
  refine ⟨fun _ => Creation.takes_of_mem_zipWith (c := Creation.font), fun l hl v hv => ?_⟩
  have hl := Creation.Holds.of_say (c := Creation.font) (by decide) hl
  have hstyle : l.value? "font-style" = some (p.style.getD normal) := hl.value? _
  have hvariant : l.value? "font-variant" = some (p.variant.getD normal) := hl.value? _
  have hweight : l.value? "font-weight" = some (p.weight.getD normal) := hl.value? _
  have hsize : l.value? "font-size" = some p.size := hl.value? _
  have hheight : l.value? "line-height" = some p.lineHeight := hl.value? _
  have hfamily : l.value? "font-family" = some (withFallbacks p.family p.fallbacks) := hl.value? _
  have hbare : isModifier p.size = false := by
    refine not_isModifier_of_not_isBareWeight p.isFontSize (hw (d.derive "font-size" p.size) ?_ rfl)
    simp [Parts.values, longhands]
  have hproper : Creation.font.proper l := by
    simp [Creation.font, hstyle, hvariant, hweight, hsize, isProper_getD p.isFontStyle,
      isProper_getD p.isFontVariant, isProper_getD p.isFontWeight, p.isFontSize, hbare]
  obtain ⟨size, family, first, fallbacks, hsize', hfamily', hsplit, hv⟩ := value?_eq hv
  obtain rfl : p.size = size := by simpa [hsize] using hsize'
  obtain rfl : withFallbacks p.family p.fallbacks = family := by simpa [hfamily] using hfamily'
  rw [splitFallbacks?_withFallbacks p.isList, Option.some.injEq, Prod.mk.injEq] at hsplit
  obtain ⟨rfl, rfl⟩ := hsplit
  rw [Value.components_spaceList p.family_ne_nil p.isList] at hv
  refine ⟨_, Creation.expand?_font_of_proper rfl hproper hsize p.family_ne_nil hv, ?_⟩
  refine Alike.zipWith rfl (by decide) ?_
  exact .cons (.inl (l.lowered_said hstyle)) (.cons (.inl (l.lowered_said hvariant))
    (.cons (.inl (l.lowered_said hweight)) (.cons (.inl rfl)
      (.cons (.inl (l.lowered_said hheight)) (.cons (.inl rfl) .nil)))))

end Font

/-! ### Families -/

-- A declaration that is neither taken apart nor put together with others.
structure Declaration.IsPlain (d : Declaration) : Prop where
  shorthands : d.name ∉ shorthands
  names : ∀ c ∈ Creation.all, d.name ∉ c.names

namespace RuleSet.Family

variable {d : Declaration} {ds : List Declaration}

-- The shorthands that are of this family alone.
def shorthands : Family → List String
  | all => []
  | border => ["border"]
  | sides => Sides.families
  | font => ["font"]
  | background => ["background"]

theorem mem_all_of_mem_creations (family : Family) : ∀ c ∈ family.creations, c ∈ Creation.all := by
  cases family
  case sides => exact fun c hc => List.mem_append_left _ (List.mem_cons_of_mem _ hc)
  all_goals simp [creations, Creation.all]

-- Creating all shorthands is the one case where a creation makes parts of another.
theorem areApart_creations {family : Family} (h : family ≠ all) :
    Creation.AreApart family.creations := by
  cases family
  case all => exact absurd rfl h
  all_goals constructor <;> decide

theorem isInherited_expand? {family : Family} (h : family ≠ all) : IsInherited family.expand? := by
  cases family
  case all => exact absurd rfl h
  case border => exact isInherited_border
  case sides => exact isInherited_sides
  case font => exact isInherited_font
  case background => exact isInherited_background

theorem shorthands_eq {family : Family} (h : family ≠ all) :
    family.shorthands = family.creations.map Creation.shorthand := by
  cases family
  case all => exact absurd rfl h
  all_goals rfl

theorem expand?_of_isPlain (family : Family) (h : d.IsPlain) : family.expand? d = none := by
  have h := isExpanded_of_name h.shorthands
  cases family
  case all =>
    simp only [expand?]
    rw [expandThen_of_none h.border, expandThen_of_none h.sides, expandThen_of_none h.font]
    exact h.background
  case border => exact h.border
  case sides => exact h.sides
  case font => exact h.font
  case background => exact h.background

theorem not_takes_of_isPlain (family : Family) (h : d.IsPlain) :
    ∀ c ∈ family.creations, c.takes d = false := by
  intro c hc
  simpa [Creation.takes] using h.names c (family.mem_all_of_mem_creations c hc)

theorem declarations_run_expand (family : Family) (rs : RuleSet) (next : RuleId) :
    let s := (family.expand rs).run next
    declarations ((family.expand rs >>= family.create >>= family.expand).run next).1 =
      (declarations ((Creation.createEach family.creations s.1).run s.2).1).flatMap
        (expandBy family.expand?) := by
  intro s
  rw [← create_eq]
  exact (family.expands.expanded _ _).declarations

theorem exists_regains {family : Family} (hd : d.name ∈ family.shorthands)
    (hb : Value.isBuilt .whole d.value)
    (hw : ∀ e ∈ ds, e.name = "font-size" → e.value.isBareWeight = false)
    (h : family.expand? d = some ds) :
    ∃ c ∈ family.creations, c.Regains family.expand? d ds ∧
      ∀ e ∈ ds, c.takes e ∧ family.expand? e = none := by
  cases family
  case all => cases hd
  case border =>
    obtain ⟨htakes, hregains⟩ := Border.regains (List.mem_singleton.mp hd) h
    exact ⟨_, List.mem_singleton_self _, hregains,
      fun e he => ⟨htakes e he, expand?_border_of_mem h e he⟩⟩
  case sides =>
    obtain ⟨htakes, hregains⟩ := Sides.regains hd h
    exact ⟨_, List.mem_map_of_mem hd, hregains,
      fun e he => ⟨htakes e he, (isExpanded_of_sides h e he).sides⟩⟩
  case font =>
    obtain ⟨htakes, hregains⟩ := Font.regains hb hw h
    exact ⟨_, List.mem_singleton_self _, hregains,
      fun e he => ⟨htakes e he, (isExpanded_of_font h e he).font⟩⟩
  case background =>
    obtain ⟨htakes, hregains⟩ := Background.regains h
    exact ⟨_, List.mem_singleton_self _, hregains,
      fun e he => ⟨htakes e he, (isExpanded_of_background h e he).background⟩⟩

-- Expanding a shorthand, creating it from its parts and expanding it again comes to the same parts.
theorem expand_create_expand {family : Family} {rs₁ rs₂ : RuleSet} {r : Rule}
    (hr : r.name ∈ family.shorthands) (hb : Value.isBuilt .whole r.value)
    (ho : ∀ s ∈ rs₁ ++ rs₂, s.toDeclaration.IsPlain) (next : RuleId)
    (hw : ∀ d ∈ declarations ((family.expand (rs₁ ++ r :: rs₂)).run next).1,
      d.name = "font-size" → d.value.isBareWeight = false) :
    List.Forall₂ Alike (declarations ((family.expand (rs₁ ++ r :: rs₂)).run next).1)
      (declarations ((family.expand (rs₁ ++ r :: rs₂) >>= family.create >>= family.expand).run
        next).1) := by
  have hplain : ∀ e ∈ declarations rs₁ ++ declarations rs₂, family.expand? e = none ∧
      ∀ c ∈ family.creations, c.takes e = false := by
    rw [← declarations_append]
    intro e he
    obtain ⟨s, hs, rfl⟩ := List.mem_map.mp he
    exact ⟨family.expand?_of_isPlain (ho s hs), family.not_takes_of_isPlain (ho s hs)⟩
  obtain ⟨hfront, hback⟩ := List.forall_mem_append.mp fun e he => (hplain e he).1
  have hall : family ≠ all := by
    rintro rfl
    cases hr
  have hexpanded : declarations ((family.expand (rs₁ ++ r :: rs₂)).run next).1 =
      declarations rs₁ ++ (expandBy family.expand? r.toDeclaration ++ declarations rs₂) := by
    rw [(family.expands.expanded _ next).declarations, declarations_append, List.flatMap_append,
      flatMap_expandBy hfront, ← flatMap_expandBy hback]
    rfl
  rw [declarations_run_expand]
  cases h : family.expand? r.toDeclaration
  case none =>
    -- The shorthand stays, and is no part of another one.
    rw [expandBy_of_none h] at hexpanded
    have hstays : ∀ e ∈ declarations rs₁ ++ ([r.toDeclaration] ++ declarations rs₂),
        family.expand? e = none ∧ ∀ c ∈ family.creations, c.takes e = false := by
      obtain ⟨hrs₁, hrs₂⟩ := List.forall_mem_append.mp hplain
      refine List.forall_mem_append.mpr ⟨hrs₁, List.forall_mem_cons.mpr ⟨⟨h, fun c hc => ?_⟩, hrs₂⟩⟩
      rw [shorthands_eq hall, List.mem_map] at hr
      obtain ⟨c', hc', hname⟩ := hr
      simpa [Creation.takes, ← hname] using (areApart_creations hall).shorthands c' hc' c hc
    rw [Creation.createEach_of_taken_eq_nil, hexpanded,
      flatMap_expandBy fun e he => (hstays e he).1]
    · exact List.forall₂_refl _
    · exact fun c hc => hexpanded ▸ Creation.taken_eq_nil fun e he => (hstays e he).2 c hc
  case some ds =>
    rw [expandBy_of_some h] at hexpanded
    have hsize : ∀ e ∈ ds, e.name = "font-size" → e.value.isBareWeight = false := fun e he =>
      hw e (hexpanded ▸ List.mem_append_right _ (List.mem_append_left _ he))
    obtain ⟨c, hc, hregains, hparts⟩ := @exists_regains r.toDeclaration ds family hr hb hsize h
    exact hregains.alike (areApart_creations hall) hc (isInherited_expand? hall) h hparts hplain
      hexpanded

def redText : Rule :=
  { name := "color", value := .keyword "red", id := 0 }

-- Upper-case words, of which one need not be said.
def loudFont : Rule :=
  { name := "font", id := 1,
    value := .list .comma [.list .space [.keyword "ITALIC",
      .pair (.size ⟨.ofNat 12, some "px"⟩) (.keyword "NORMAL"), .keyword "Georgia"],
      .keyword "serif"] }

theorem expand_create_expand_loudFont :
    List.Forall₂ Alike (declarations ((font.expand [redText, loudFont]).run 2).1)
      (declarations ((font.expand [redText, loudFont] >>= font.create >>= font.expand).run
        2).1) := by
  refine @expand_create_expand font [redText] [] loudFont (by decide) (by decide) (fun s hs => ?_) 2
    (by decide +kernel)
  obtain rfl := List.mem_singleton.mp hs
  exact ⟨by decide, by decide⟩

end RuleSet.Family

end Stylesheet
