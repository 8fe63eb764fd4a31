import Mathlib.Data.List.Basic
import Stylesheet.Proofs.Selector.Accepted
/-!
Reading the selectors of a list again. A list is normalized as a whole, where a quote counts also
behind a backslash, and then divided and trimmed, where a backslash takes a white space with it. So
a selector that is read alone is normalized as before, unless one in front of it leaves a string
open to normalization; and in the list as it is written every comma divides again, unless the
selector in front of it ends behind a backslash. Main statement: `Selector.rereads_listOfText`.
-/

namespace Stylesheet.Selector

open Standing (start)

variable {blank : Bool} {context : Context} {c : Char} {cs ds p : List Char}
  {ps : List (List Char)} {t : Standing}

/-! ### Context -/

namespace Context

theorem pass_eq_settle (hp : context.isProper) (hc : Text.isBlank c) :
    context.pass c = context.settle := by
  cases context
  case plain | escaped => exact pass_of_isBlank rfl hc
  case quoted => exact pass_quoted hp hc
  case quotedEscape => rfl

theorem passAll_blanks (hp : context.isProper) (hb : ∀ c ∈ cs, Text.isBlank c) :
    context.passAll cs = context ∨ context.passAll cs = context.settle := by
  induction cs generalizing context
  case nil => exact .inl rfl
  case cons c cs ih =>
    obtain ⟨hc, hcs⟩ := List.forall_mem_cons.mp hb
    rw [passAll, List.foldl_cons, pass_eq_settle hp hc]
    have hsettled := ih (isProper_settle hp) hcs
    rw [settle_settle, or_self] at hsettled
    exact .inr hsettled

theorem isProper_passAll (hp : context.isProper) (cs : List Char) :
    (context.passAll cs).isProper := by
  induction cs generalizing context
  case nil => exact hp
  case cons c cs ih => exact ih (isProper_pass hp c)

-- The context behind a part of a list and the comma behind it.
def passPart (context : Context) (p : List Char) : Context :=
  (context.passAll p).pass ','

theorem isProper_passPart (hp : context.isProper) (p : List Char) : (context.passPart p).isProper :=
  isProper_pass (isProper_passAll hp p) ','

theorem settle_passPart (context : Context) (p : List Char) :
    (context.passPart p).settle = context.passPart p := by
  rw [passPart]
  cases context.passAll p
  case quoted q =>
    have hbackslash : ',' ≠ '\\' := by decide
    rw [pass, inString, if_neg hbackslash]
    split <;> rfl
  all_goals rfl

theorem pass_comma_settle (hp : context.isProper) : context.settle.pass ',' = context.pass ',' := by
  cases context
  case quotedEscape q =>
    rcases Standing.eq_of_isQuote hp with rfl | rfl <;> rfl
  all_goals rfl

end Context

/-! ### Normalized text -/

theorem squeeze_of_not_isInString (hs : context.isInString = false) :
    squeeze blank context cs = squeeze blank .plain cs := by
  cases context
  case plain => rfl
  case escaped => cases cs <;> rfl
  case quoted | quotedEscape => cases hs

theorem squeeze_squeeze (blank : Bool) (context : Context) (cs : List Char) :
    squeeze blank context (squeeze blank context cs) = squeeze blank context cs := by
  induction cs generalizing blank context
  case nil => rfl
  case cons c cs ih =>
    by_cases h : context.isInString ∨ Text.isBlank c = false
    case pos => rw [squeeze_keep h, squeeze_keep h, ih]
    case neg =>
      obtain ⟨hs, hc⟩ := not_or.mp h
      rw [squeeze_blank (eq_false_of_ne_true hs) (by simpa using hc)]
      cases blank
      case true =>
        rw [if_pos rfl, squeeze_of_not_isInString (eq_false_of_ne_true hs), ih]
      case false =>
        rw [if_neg Bool.false_ne_true, squeeze_blank (eq_false_of_ne_true hs) (by decide),
          if_neg Bool.false_ne_true, ih]

theorem length_squeeze_le (blank : Bool) (context : Context) (cs : List Char) :
    (squeeze blank context cs).length ≤ cs.length := by
  fun_induction squeeze blank context cs
  case case1 => exact Nat.le_refl _
  case case2 ih => exact Nat.le_succ_of_le ih
  case case3 ih => exact Nat.succ_le_succ ih
  case case4 ih => exact Nat.succ_le_succ ih

-- What is normalized behind white space does not begin with it, so it is normalized anyway.
theorem squeeze_false_of_squeeze (h : squeeze blank context cs = cs) :
    squeeze false context cs = cs := by
  cases blank
  case false => exact h
  case true =>
    cases cs
    case nil => rfl
    case cons c cs =>
      by_cases hc : context.isInString ∨ Text.isBlank c = false
      case pos => rwa [squeeze_keep hc] at h ⊢
      case neg =>
        obtain ⟨hs, hc⟩ := not_or.mp hc
        rw [squeeze_blank (eq_false_of_ne_true hs) (by simpa using hc), if_pos rfl] at h
        have hle := length_squeeze_le true .plain cs
        rw [h] at hle
        exact absurd hle (Nat.not_succ_le_self _)

-- Both parts of a normalized text are normalized.
theorem squeeze_of_append (h : squeeze false context (cs ++ ds) = cs ++ ds) :
    squeeze false context cs = cs ∧ squeeze false (context.passAll cs) ds = ds := by
  obtain ⟨blank, happend, -⟩ := exists_squeeze_append false context cs ds
  have hcs := length_squeeze_le false context cs
  have hds := length_squeeze_le blank (context.passAll cs) ds
  have hlength := congrArg List.length (happend.symm.trans h)
  simp only [List.length_append] at hlength
  obtain ⟨hcs, hds⟩ := List.append_inj (happend.symm.trans h) (by omega)
  exact ⟨hcs, squeeze_false_of_squeeze hds⟩

theorem squeeze_normalize (cs : List Char) :
    squeeze false .plain (normalize cs) = normalize cs := by
  rw [normalize_eq, squeeze_squeeze]

theorem squeeze_trim (hp : context.isProper) (hs : context.settle = context)
    (h : squeeze false context p = p) : squeeze false context (Text.trim p) = Text.trim p ∧
      context.passPart (Text.trim p) = context.passPart p := by
  obtain ⟨front, back, hfront, hblank, hback⟩ := Text.exists_trim p
  generalize Text.trim p = q at hfront
  subst hfront
  have hpass : context.passAll front = context := by
    have := Context.passAll_blanks hp hblank
    rwa [hs, or_self] at this
  have hq := (squeeze_of_append h).2
  rw [hpass] at hq
  refine ⟨(squeeze_of_append hq).1, ?_⟩
  rw [Context.passPart, Context.passPart, Context.passAll_append, hpass, Context.passAll_append]
  have hproper := Context.isProper_passAll hp q
  obtain hq | hq := Context.passAll_blanks hproper hback
  · rw [hq]
  · rw [hq, Context.pass_comma_settle hproper]

-- A blank in front of what begins with none.
theorem squeeze_space (hp : context.isProper) (hs : context.settle = context)
    (hn : ∀ c ∈ cs.head?, Text.isBlank c = false) (h : squeeze false context cs = cs) :
    squeeze false context (' ' :: cs) = ' ' :: cs ∧
      context.passPart (' ' :: cs) = context.passPart cs := by
  have hpass : context.pass ' ' = context := (Context.pass_eq_settle hp (by decide)).trans hs
  refine ⟨?_, by rw [Context.passPart, Context.passAll, List.foldl_cons, hpass]; rfl⟩
  rw [squeeze]
  split
  case isTrue =>
    rw [if_neg Bool.false_ne_true, hpass]
    cases cs
    case nil => rfl
    case cons c cs =>
      have hc := hn c rfl
      rw [squeeze_keep (.inr hc)] at h ⊢
      rw [h]
  case isFalse => rw [hpass, h]

/-! ### Normalized parts -/

-- Parts of a list that are normalized behind one another.
inductive AreTidy : Context → List (List Char) → Prop
  | last {context : Context} {p : List Char} (hp : squeeze false context p = p) :
    AreTidy context [p]
  | more {context : Context} {p : List Char} {ps : List (List Char)}
    (hp : squeeze false context p = p) (h : AreTidy (context.passPart p) ps) :
    AreTidy context (p :: ps)

namespace AreTidy

theorem ne_nil (h : AreTidy context ps) : ps ≠ [] := by
  cases h <;> exact List.cons_ne_nil _ _

theorem of_join (hn : ps ≠ [])
    (h : squeeze false context ([','].intercalate ps) = [','].intercalate ps) :
    AreTidy context ps := by
  induction ps generalizing context
  case nil => contradiction
  case cons p ps ih =>
    by_cases hps : ps = []
    case pos =>
      subst hps
      rw [List.intercalate_singleton] at h
      exact .last h
    case neg =>
      rw [join_cons p hps] at h
      obtain ⟨hp, hrest⟩ := squeeze_of_append h
      exact .more hp (ih hps (@squeeze_of_append _ [','] _ hrest).2)

theorem squeeze_join (h : AreTidy context ps) :
    squeeze false context ([','].intercalate ps) = [','].intercalate ps := by
  induction h
  case last hp => rwa [List.intercalate_singleton]
  case more context p ps hp h ih =>
    obtain ⟨blank, happend, -⟩ :=
      exists_squeeze_append false context p (',' :: [','].intercalate ps)
    rw [join_cons p h.ne_nil, happend, hp, squeeze_keep (.inr (by decide))]
    exact congrArg (p ++ ',' :: ·) ih

theorem map_trim (h : AreTidy context ps) (hp : context.isProper)
    (hs : context.settle = context) : AreTidy context (ps.map Text.trim) := by
  induction h
  case last hsqueeze => exact .last (squeeze_trim hp hs hsqueeze).1
  case more context p _ hsqueeze _ ih =>
    obtain ⟨htrim, hpass⟩ := squeeze_trim hp hs hsqueeze
    have ih := ih (Context.isProper_passPart hp p) (Context.settle_passPart context p)
    exact .more htrim (hpass ▸ ih)

-- Behind a comma there may be a blank.
theorem map_space (h : AreTidy context ps) (hp : context.isProper)
    (hs : context.settle = context) (ht : ∀ p ∈ ps, Text.trim p = p) :
    AreTidy context (ps.map (' ' :: ·)) := by
  have hhead {p : List Char} (hp : Text.trim p = p) : ∀ c ∈ p.head?, Text.isBlank c = false :=
    hp ▸ Text.head_trim
  induction h
  case last hsqueeze =>
    have hhead := hhead (ht _ (List.mem_singleton.mpr rfl))
    exact .last (squeeze_space hp hs hhead hsqueeze).1
  case more context p _ hsqueeze _ ih =>
    obtain ⟨hpt, ht⟩ := List.forall_mem_cons.mp ht
    obtain ⟨hspace, hpass⟩ := squeeze_space hp hs (hhead hpt) hsqueeze
    have ih := ih (Context.isProper_passPart hp p) (Context.settle_passPart context p) ht
    exact .more hspace (hpass ▸ ih)

-- What is normalized behind the other parts.
theorem of_append {front back : List (List Char)} (h : AreTidy context (front ++ p :: back)) :
    squeeze false (front.foldl Context.passPart context) p = p := by
  induction front generalizing context
  case nil => cases h <;> assumption
  case cons q front ih =>
    cases hps : front ++ p :: back
    case nil => simp at hps
    case cons =>
      rw [List.cons_append, hps] at h
      cases h
      case more h => exact ih (hps ▸ h)

end AreTidy

/-! ### Division -/

namespace Standing

theorem eq_of_isFinal (h : t.isFinal) : t = start ∨ t = ⟨.escaped, []⟩ := by
  obtain ⟨context, brackets⟩ := t
  cases context <;> cases brackets <;> first | exact .inl rfl | exact .inr rfl | cases h

theorem context_of_walk? {s : Standing} (h : s.walk? cs = some t) :
    t.context = cs.foldl Context.next s.context := by
  induction cs generalizing s
  case nil =>
    cases h
    rfl
  case cons c cs ih =>
    obtain ⟨u, hstep, hw⟩ := exists_of_walk?_cons h
    rw [List.foldl_cons, ← context_of_step? hstep]
    exact ih hw

end Standing

-- Whether a text ends behind a backslash that takes the character behind it.
def endsEscaped (cs : List Char) : Bool :=
  cs.foldl Context.next .plain = .escaped

theorem endsEscaped_of_passes (h : start.Passes p t) :
    endsEscaped p = decide (t.context = .escaped) := by
  rw [endsEscaped, Standing.context_of_walk? h.walk]
  rfl

theorem passes_of_isPart (h : IsPart p) (he : endsEscaped p = false) : start.Passes p start := by
  obtain ⟨t, hp, ht⟩ := h
  obtain rfl | rfl := Standing.eq_of_isFinal ht
  · exact hp
  · cases (endsEscaped_of_passes hp).symm.trans he

theorem parts_of_isPart (hn : ps ≠ []) (h : ∀ p ∈ ps, IsPart p)
    (he : ∀ p ∈ ps.dropLast, endsEscaped p = false) : ∃ t, Parts start t ps ∧ t.isFinal := by
  induction ps
  case nil => contradiction
  case cons p ps ih =>
    obtain ⟨hp, hps⟩ := List.forall_mem_cons.mp h
    by_cases hnil : ps = []
    case pos =>
      subst hnil
      obtain ⟨t, hp, ht⟩ := hp
      exact ⟨t, .last hp, ht⟩
    case neg =>
      rw [List.dropLast_cons_of_ne_nil hnil] at he
      obtain ⟨hep, heps⟩ := List.forall_mem_cons.mp he
      obtain ⟨t, hparts, ht⟩ := ih hnil hps heps
      exact ⟨t, .more (passes_of_isPart hp hep) hparts, ht⟩

-- A comma behind a backslash divides nothing.
theorem length_split_join (hn : ps ≠ []) (h : ∀ p ∈ ps, IsPart p) :
    (start.split ([','].intercalate ps)).length ≤ ps.length ∧
      ((start.split ([','].intercalate ps)).length = ps.length →
        ∀ p ∈ ps.dropLast, endsEscaped p = false) := by
  induction ps
  case nil => contradiction
  case cons p ps ih =>
    obtain ⟨⟨t, hp, ht⟩, hps⟩ := List.forall_mem_cons.mp h
    by_cases hnil : ps = []
    case pos =>
      subst hnil
      rw [List.intercalate_singleton, hp.split]
      exact ⟨Nat.le_refl _, fun _ => nofun⟩
    case neg =>
      obtain ⟨hle, hends⟩ := ih hnil hps
      rw [join_cons p hnil, hp.split_append, List.length_modifyHead, List.length_cons,
        List.dropLast_cons_of_ne_nil hnil, List.forall_mem_cons]
      obtain rfl | rfl := Standing.eq_of_isFinal ht
      · rw [Standing.split_start_comma, List.length_cons]
        exact ⟨Nat.succ_le_succ hle, fun hlength =>
          ⟨endsEscaped_of_passes hp, hends (Nat.succ.inj hlength)⟩⟩
      · have hstep : Standing.step? ⟨.escaped, []⟩ ',' = some start := rfl
        rw [Standing.split_cons hstep nofun, List.length_modifyHead]
        exact ⟨Nat.le_succ_of_le hle, fun hlength => absurd hlength (by omega)⟩

/-! ### Lists -/

-- Whether the texts of selectors, read as the parts of a list, leave a string open for
-- normalization.
def leavesString (selectors : List Selector) : Bool :=
  (selectors.foldl (fun context s => context.passPart s.text.toList) Context.plain).isInString

-- Parts that are written with a blank behind each comma.
def spaced : List (List Char) → List (List Char)
  | [] => []
  | p :: ps => p :: ps.map (' ' :: ·)

theorem join_spaced (ps : List (List Char)) :
    [','].intercalate (spaced ps) = [',', ' '].intercalate ps := by
  cases ps
  case nil => rfl
  case cons p ps =>
    induction ps generalizing p
    case nil => rfl
    case cons q ps ih =>
      have ih : [','].intercalate (q :: ps.map (' ' :: ·)) =
          [',', ' '].intercalate (q :: ps) := ih q
      have hspace : [','].intercalate ((' ' :: q) :: ps.map (' ' :: ·)) =
          ' ' :: [','].intercalate (q :: ps.map (' ' :: ·)) := by
        cases ps <;> simp [List.intercalate_cons_cons]
      rw [spaced, List.map_cons, List.intercalate_cons_cons, hspace, ih,
        List.intercalate_cons_cons]
      simp

theorem trim_space (cs : List Char) : Text.trim (' ' :: cs) = Text.trim cs := by
  rw [Text.trim, Text.trimStart, List.dropWhile_cons_of_pos (by decide)]
  rfl

theorem map_trim_spaced (h : ∀ p ∈ ps, Text.trim p = p) : (spaced ps).map Text.trim = ps := by
  cases ps
  case nil => rfl
  case cons p ps =>
    obtain ⟨hp, hps⟩ := List.forall_mem_cons.mp h
    have hmap : ps.map (fun p => Text.trim (' ' :: p)) = ps := by
      conv_rhs => rw [← List.map_id ps]
      exact List.map_congr_left fun p hp => (trim_space p).trans (hps p hp)
    rw [spaced, List.map_cons, hp, List.map_map]
    exact congrArg (p :: ·) hmap

theorem AreTidy.spaced (h : AreTidy .plain ps) (ht : ∀ p ∈ ps, Text.trim p = p) :
    AreTidy .plain (spaced ps) := by
  cases h
  case last hp => exact .last hp
  case more p _ hp h =>
    have hspace := h.map_space (Context.isProper_passPart rfl p) (Context.settle_passPart .plain p)
    exact .more hp (hspace (List.forall_mem_cons.mp ht).2)

theorem IsPart.space (h : IsPart p) : IsPart (' ' :: p) := by
  obtain ⟨t, hp, ht⟩ := h
  have hstep : start.step? ' ' = some start := rfl
  exact ⟨t, hp.cons hstep (fun _ => by decide), ht⟩

theorem isPart_spaced (h : ∀ p ∈ ps, IsPart p) : ∀ p ∈ spaced ps, IsPart p := by
  cases ps
  case nil => exact h
  case cons p ps =>
    obtain ⟨hp, hps⟩ := List.forall_mem_cons.mp h
    exact List.forall_mem_cons.mpr ⟨hp, List.forall_mem_map.mpr fun q hq => (hps q hq).space⟩

theorem endsEscaped_spaced : (∀ p ∈ (spaced ps).dropLast, endsEscaped p = false) ↔
    ∀ p ∈ ps.dropLast, endsEscaped p = false := by
  match ps with
  | [] | [_] => exact Iff.rfl
  | p :: q :: qs =>
    rw [spaced, List.dropLast_cons_of_ne_nil (by simp), List.dropLast_cons_of_ne_nil (by simp),
      ← List.map_dropLast, List.forall_mem_cons, List.forall_mem_cons, List.forall_mem_map]
    rfl

theorem ends_intercalate {sep : List Char} (hn : ps ≠ []) (h : ∀ p ∈ ps, IsEntry p) :
    sep.intercalate ps ≠ [] ∧
      (∀ c ∈ (sep.intercalate ps).head?, Text.isBlank c = false) ∧
      ∀ c ∈ (sep.intercalate ps).getLast?, Text.isBlank c = false := by
  induction ps
  case nil => contradiction
  case cons p ps ih =>
    obtain ⟨hp, hps⟩ := List.forall_mem_cons.mp h
    have hhead : ∀ c ∈ p.head?, Text.isBlank c = false := hp.trimmed ▸ Text.head_trim
    by_cases hnil : ps = []
    case pos =>
      subst hnil
      rw [List.intercalate_singleton]
      exact ⟨hp.ne_nil, hhead, hp.trimmed ▸ Text.getLast_trim⟩
    case neg =>
      obtain ⟨hjoin, -, hlast⟩ := ih hnil hps
      rw [List.intercalate_cons_of_ne_nil hnil, List.append_assoc,
        List.head?_append_of_ne_nil p hp.ne_nil, ← List.append_assoc,
        List.getLast?_append_of_ne_nil _ hjoin]
      exact ⟨List.append_ne_nil_of_right_ne_nil _ hjoin, hhead, hlast⟩

theorem normalize_join_spaced (h : AreTidy .plain ps) (hp : ∀ p ∈ ps, IsEntry p) :
    normalize ([',', ' '].intercalate ps) = [','].intercalate (spaced ps) := by
  obtain ⟨-, hhead, hlast⟩ := @ends_intercalate _ [',', ' '] h.ne_nil hp
  have hspaced := h.spaced fun p hps => (hp p hps).trimmed
  rw [normalize_eq, Text.trim_of_ends hhead hlast, ← join_spaced, hspaced.squeeze_join]

/-! ### Reading again -/

section Reading

variable {text : String} {selectors : List Selector}

theorem areTidy_of_listOfText (h : listOfText text = .ok selectors) :
    AreTidy .plain (selectors.map (·.text.toList)) := by
  obtain ⟨-, -, -, rfl⟩ := listOfText_eq_ok_iff.mp h
  have htidy : AreTidy .plain (start.split (normalize text.toList)) := by
    refine .of_join Standing.split_ne_nil ?_
    rw [Standing.join_split, squeeze_normalize]
  simpa [Function.comp_def] using htidy.map_trim rfl rfl

theorem ofText_of_mem_listOfText (h : listOfText text = .ok selectors) {front back : List Selector}
    {s : Selector} (hs : selectors = front ++ s :: back) (hf : leavesString front = false) :
    ofText s.text = .ok s := by
  have htidy := areTidy_of_listOfText h
  rw [hs, List.map_append, List.map_cons] at htidy
  have hsqueeze := htidy.of_append
  rw [List.foldl_map, squeeze_of_not_isInString hf] at hsqueeze
  have hentry := isEntry_of_mem_listOfText h s (by simp [hs])
  rw [ofText_eq_ok_iff, normalize_eq, hentry.trimmed, hsqueeze, String.ofList_toList]
  exact ⟨hentry.ne_nil, hentry.isPart, rfl⟩

theorem listOfText_join_iff (h : AreTidy .plain ps) (hp : ∀ p ∈ ps, IsEntry p)
    (htext : text.toList = [',', ' '].intercalate ps) :
    listOfText text = .ok (ps.map (⟨String.ofList ·⟩)) ↔
      ∀ p ∈ ps.dropLast, endsEscaped p = false := by
  have htrim := map_trim_spaced fun p hps => (hp p hps).trimmed
  have hparts := isPart_spaced fun p hps => (hp p hps).isPart
  have hspaced := h.spaced fun p hps => (hp p hps).trimmed
  rw [listOfText_eq_ok_iff, htext, normalize_join_spaced h hp, ← endsEscaped_spaced]
  constructor
  case mp =>
    rintro ⟨-, -, -, hselectors⟩
    have hlength := congrArg List.length hselectors
    rw [List.length_map, List.length_map] at hlength
    refine (length_split_join hspaced.ne_nil hparts).2 (hlength.symm.trans ?_)
    rw [← congrArg List.length htrim, List.length_map]
  case mpr =>
    intro he
    obtain ⟨t, hparts, hfinal⟩ := parts_of_isPart hspaced.ne_nil hparts he
    obtain ⟨hw, hsplit⟩ := hparts.splitTopLevel_join
    rw [hsplit]
    refine ⟨?_, ⟨t, hw, hfinal⟩, fun p hps => ?_, ?_⟩
    · rw [join_spaced]
      exact (ends_intercalate h.ne_nil hp).1
    · exact (hp _ (htrim ▸ List.mem_map_of_mem hps)).ne_nil
    · conv_lhs => rw [← htrim]
      rw [List.map_map]
      rfl

-- Which selectors of a list are read again as they are, and which lists as they are written.
theorem rereads_listOfText (h : listOfText text = .ok selectors) :
    (∀ front s back, selectors = front ++ s :: back → leavesString front = false →
      ofText s.text = .ok s) ∧
      (listOfText (", ".intercalate (selectors.map (·.text))) = .ok selectors ↔
        ∀ s ∈ selectors.dropLast, endsEscaped s.text.toList = false) := by
  refine ⟨fun _ _ _ hs hf => ofText_of_mem_listOfText h hs hf, ?_⟩
  have hselectors : (selectors.map (·.text.toList)).map (⟨String.ofList ·⟩) = selectors := by
    simp [Function.comp_def]
  have htext : (", ".intercalate (selectors.map (·.text))).toList =
      [',', ' '].intercalate (selectors.map (·.text.toList)) := by
    rw [String.toList_intercalate, List.map_map]
    rfl
  have hjoin := listOfText_join_iff (areTidy_of_listOfText h)
    (List.forall_mem_map.mpr (isEntry_of_mem_listOfText h)) htext
  rwa [hselectors, ← List.map_dropLast, List.forall_mem_map] at hjoin

-- A list with white space and a comma in a string, and a backslash at the end.
theorem rereads_listOfText_string :
    listOfText " a  b,[c='d,  e']\\ " = .ok [⟨"a b"⟩, ⟨"[c='d,  e']\\"⟩] ∧
      [(⟨"a b"⟩ : Selector), ⟨"[c='d,  e']\\"⟩] = [⟨"a b"⟩] ++ ⟨"[c='d,  e']\\"⟩ :: [] ∧
      leavesString [⟨"a b"⟩] = false ∧
      ofText "[c='d,  e']\\" = .ok ⟨"[c='d,  e']\\"⟩ ∧
      listOfText "a b, [c='d,  e']\\" = .ok [⟨"a b"⟩, ⟨"[c='d,  e']\\"⟩] := by
  have h : listOfText " a  b,[c='d,  e']\\ " = .ok [⟨"a b"⟩, ⟨"[c='d,  e']\\"⟩] := by rfl
  have hstring : leavesString [⟨"a b"⟩] = false := by rfl
  obtain ⟨hsingle, hlist⟩ := rereads_listOfText h
  have hjoin : ", ".intercalate ["a b", "[c='d,  e']\\"] = "a b, [c='d,  e']\\" := by rfl
  refine ⟨h, rfl, hstring, hsingle _ _ _ rfl hstring, ?_⟩
  rw [← hjoin]
  exact hlist.mpr (List.forall_mem_singleton.mpr (by rfl))

-- An escaped quote leaves a string open to normalization, so white space behind the comma is kept
-- that is not kept when the selector is read alone. And an escaped white space in front of a comma
-- is trimmed, so the backslash takes the comma.
theorem listOfText_not_reread :
    listOfText "a\\\x22,b  c" = .ok [⟨"a\\\x22"⟩, ⟨"b  c"⟩] ∧
      ofText "b  c" = .ok ⟨"b c"⟩ ∧
      listOfText "a\\ ,b" = .ok [⟨"a\\"⟩, ⟨"b"⟩] ∧
      listOfText (", ".intercalate ["a\\", "b"]) = .ok [⟨"a\\, b"⟩] ∧
      ¬∀ text selectors, listOfText text = .ok selectors →
        (∀ s ∈ selectors, ofText s.text = .ok s) ∧
          listOfText (", ".intercalate (selectors.map (·.text))) = .ok selectors := by
  have hquote : listOfText "a\\\x22,b  c" = .ok [⟨"a\\\x22"⟩, ⟨"b  c"⟩] := by rfl
  have hsingle : ofText "b  c" = .ok ⟨"b c"⟩ := by rfl
  refine ⟨hquote, hsingle, by rfl, by rfl, fun h => ?_⟩
  have hs := (h _ _ hquote).1 ⟨"b  c"⟩ (List.mem_cons_of_mem _ List.mem_cons_self)
  exact absurd (hsingle.symm.trans hs) (by decide)

end Reading

end Stylesheet.Selector
