import Stylesheet.Proofs.Selector.Respaced
/-!
Which texts are selectors. A selector is read exactly from text in which brackets are balanced and
strings closed, with no brace or semicolon outside strings and escapes, and no comma outside
brackets; and a list of them is read exactly if its parts are such text. Main statements:
`Selector.isPart_iff`, `Selector.readers_agree`.
-/

namespace Stylesheet.Selector

open Standing (Closes StepsTo isFree start)

variable {commas : Bool} {context : Context} {c quote bracket : Char} {cs brackets : List Char}
  {t : Standing}

-- A string from behind its first quote on.
inductive IsStringRest (quote : Char) : List Char → Prop
  | close : IsStringRest quote [quote]
  | escape {cs : List Char} (c : Char) (h : IsStringRest quote cs) :
    IsStringRest quote ('\\' :: c :: cs)
  | char {c : Char} {cs : List Char} (hc : c ≠ '\\') (hq : c ≠ quote) (h : IsStringRest quote cs) :
    IsStringRest quote (c :: cs)

-- Text with balanced brackets and closed strings, and no brace or semicolon outside strings and
-- escapes. `commas` says whether commas may stand outside brackets.
inductive IsBalanced : Bool → List Char → Prop
  | nil {commas : Bool} : IsBalanced commas []
  | free {commas : Bool} {c : Char} {cs : List Char} (hc : isFree c) (h : IsBalanced commas cs) :
    IsBalanced commas (c :: cs)
  | comma {cs : List Char} (h : IsBalanced true cs) : IsBalanced true (',' :: cs)
  | escape {commas : Bool} {cs : List Char} (c : Char) (h : IsBalanced commas cs) :
    IsBalanced commas ('\\' :: c :: cs)
  | string {commas : Bool} {quote : Char} {content cs : List Char} (hq : isQuote quote)
    (hs : IsStringRest quote content) (h : IsBalanced commas cs) :
    IsBalanced commas (quote :: (content ++ cs))
  | brackets {commas : Bool} {bracket closing : Char} {inner cs : List Char}
    (hb : Closes bracket closing) (hi : IsBalanced true inner) (h : IsBalanced commas cs) :
    IsBalanced commas (bracket :: (inner ++ closing :: cs))

-- The text of a single selector. Only its end may be behind a backslash.
def IsSingle (cs : List Char) : Prop :=
  IsBalanced false cs ∨ ∃ front, cs = front ++ ['\\'] ∧ IsBalanced false front

/-! ### Such text is read -/

theorem IsStringRest.passes (hq : isQuote quote) (h : IsStringRest quote cs) :
    Standing.Passes ⟨.quoted quote, brackets⟩ cs ⟨.plain, brackets⟩ := by
  induction h
  case close =>
    refine .cons_of_ne_plain (by simp) ?_
    have hnext : (Context.quoted quote).next quote = .plain := by
      simp [Context.next, Context.inString, (Context.of_isQuote hq).2.2]
    rw [hnext]
    exact .nil _
  case escape c _ ih =>
    have hnext : (Context.quoted quote).next '\\' = .quotedEscape quote := rfl
    refine .cons_of_ne_plain (by simp) ?_
    rw [hnext]
    exact .cons_of_ne_plain (by simp) ih
  case char c _ hc hne _ ih =>
    refine .cons_of_ne_plain (by simp) ?_
    have hnext : (Context.quoted quote).next c = .quoted quote := by
      simp [Context.next, Context.inString, hc, hne]
    rwa [hnext]

theorem IsBalanced.passes (h : IsBalanced commas cs) (hb : commas → brackets ≠ []) :
    Standing.Passes ⟨.plain, brackets⟩ cs ⟨.plain, brackets⟩ := by
  have hstep {brackets : List Char} {c : Char} {t : Standing} (h : StepsTo brackets c t) :
      Standing.step? ⟨.plain, brackets⟩ c = some t := Standing.step?_eq_some_iff.mpr h
  induction h generalizing brackets
  case nil => exact .nil _
  case free hc _ ih =>
    refine .cons (hstep (.free hc)) (fun _ => ?_) (ih hb)
    exact (Standing.of_isFree hc).2.2.2.2.2.2.2.2.1
  case comma ih =>
    refine .cons (hstep .comma) (fun hs => ?_) (ih hb)
    exact absurd (congrArg Standing.brackets hs) (hb rfl)
  case escape c _ ih =>
    exact .cons (hstep .escape) (fun _ => by decide) (.cons_of_ne_plain (by simp) (ih hb))
  case string hq hs _ ih =>
    refine .cons (hstep (.quote hq)) (fun _ => ?_) ((hs.passes hq).append (ih hb))
    rcases Standing.eq_of_isQuote hq with rfl | rfl <;> decide
  case brackets bracket closing _ _ hc _ _ ihi ih =>
    have hopens : bracket = '(' ∨ bracket = '[' := by cases hc <;> simp
    have hinner := @ihi (bracket :: brackets) fun _ => List.cons_ne_nil _ _
    have hclosing := Standing.Passes.cons (hstep (.closes hc)) (fun hs => nomatch hs) (ih hb)
    refine .cons (hstep (.opens hopens)) (fun _ => ?_) (hinner.append hclosing)
    cases hc <;> decide

/-! ### What is read is such text -/

theorem exists_isStringRest (h : Standing.walk? ⟨context, brackets⟩ cs = some t)
    (ht : t.context.isInString = false) : match context with
    | .quoted quote => ∃ content ds, cs = content ++ ds ∧ IsStringRest quote content ∧
      Standing.walk? ⟨.plain, brackets⟩ ds = some t
    | .quotedEscape quote => ∃ c content ds, cs = c :: (content ++ ds) ∧
      IsStringRest quote content ∧ Standing.walk? ⟨.plain, brackets⟩ ds = some t
    | _ => True := by
  induction cs generalizing context
  case nil =>
    cases h
    cases context
    case plain | escaped => trivial
    case quoted | quotedEscape => cases ht
  case cons c cs ih =>
    obtain ⟨u, hstep, hw⟩ := Standing.exists_of_walk?_cons h
    cases context
    case plain | escaped => trivial
    case quoted quote =>
      cases hstep
      by_cases hc : c = '\\'
      case pos =>
        subst hc
        obtain ⟨d, content, ds, rfl, hs, hw⟩ := ih hw
        exact ⟨'\\' :: d :: content, ds, rfl, .escape d hs, hw⟩
      case neg =>
        by_cases hq : c = quote
        case pos =>
          subst hq
          have hnext : (Context.quoted c).next c = .plain := by
            simp [Context.next, Context.inString, hc]
          exact ⟨[c], cs, rfl, .close, hnext ▸ hw⟩
        case neg =>
          have hnext : (Context.quoted quote).next c = .quoted quote := by
            simp [Context.next, Context.inString, hc, hq]
          rw [hnext] at hw
          obtain ⟨content, ds, rfl, hs, hw⟩ := ih hw
          exact ⟨c :: content, ds, rfl, .char hc hq hs, hw⟩
    case quotedEscape quote =>
      cases hstep
      obtain ⟨content, ds, rfl, hs, hw⟩ := ih hw
      exact ⟨c, content, ds, rfl, hs, hw⟩

theorem Standing.eq_nil_of_isFinal (h : t.isFinal) :
    t.brackets = [] ∧ t.context.isInString = false := by
  obtain ⟨context, brackets⟩ := t
  cases context <;> cases brackets <;> first | exact ⟨rfl, rfl⟩ | cases h

-- An open bracket is closed.
theorem exists_isBalanced (h : Standing.walk? ⟨.plain, bracket :: brackets⟩ cs = some t)
    (ht : t.isFinal) : ∃ inner closing ds, cs = inner ++ closing :: ds ∧ Closes bracket closing ∧
      IsBalanced true inner ∧ Standing.walk? ⟨.plain, brackets⟩ ds = some t := by
  obtain ⟨hbrackets, hstring⟩ := Standing.eq_nil_of_isFinal ht
  -- What is behind a string or an inner pair is not the tail of the text, but it is shorter.
  induction hn : cs.length using Nat.strongRecOn generalizing cs bracket brackets
  case ind n ih =>
    cases cs
    case nil =>
      cases h
      cases hbrackets
    case cons c cs =>
      rw [List.length_cons] at hn
      obtain ⟨u, hstep, hw⟩ := Standing.exists_of_walk?_cons h
      cases Standing.step?_eq_some_iff.mp hstep
      case free hc =>
        obtain ⟨inner, closing, ds, rfl, hb, hi, hw⟩ := ih _ (by omega) hw rfl
        exact ⟨c :: inner, closing, ds, rfl, hb, .free hc hi, hw⟩
      case comma =>
        obtain ⟨inner, closing, ds, rfl, hb, hi, hw⟩ := ih _ (by omega) hw rfl
        exact ⟨',' :: inner, closing, ds, rfl, hb, .comma hi, hw⟩
      case escape =>
        cases cs
        case nil =>
          cases hw
          cases hbrackets
        case cons d cs =>
          rw [List.length_cons] at hn
          have hw : Standing.walk? ⟨.plain, bracket :: brackets⟩ cs = some t := hw
          obtain ⟨inner, closing, ds, rfl, hb, hi, hw⟩ := ih _ (by omega) hw rfl
          exact ⟨'\\' :: d :: inner, closing, ds, rfl, hb, .escape d hi, hw⟩
      case quote hq =>
        obtain ⟨content, ds, rfl, hs, hw⟩ := exists_isStringRest hw hstring
        rw [List.length_append] at hn
        obtain ⟨inner, closing, ds, rfl, hb, hi, hw⟩ := ih _ (by omega) hw rfl
        exact ⟨c :: (content ++ inner), closing, ds, by simp, hb, .string hq hs hi, hw⟩
      case opens =>
        obtain ⟨inner, closing, ds, rfl, hb, hi, hw⟩ := ih _ (by omega) hw rfl
        rw [List.length_append, List.length_cons] at hn
        obtain ⟨inner', closing', ds, rfl, hb', hi', hw⟩ := ih _ (by omega) hw rfl
        exact ⟨c :: (inner ++ closing :: inner'), closing', ds, by simp, hb', .brackets hb hi hi',
          hw⟩
      case closes hb => exact ⟨[], c, cs, rfl, hb, .nil, hw⟩

theorem IsBalanced.append (h : IsBalanced commas cs) {ds : List Char} (h' : IsBalanced commas ds) :
    IsBalanced commas (cs ++ ds) := by
  induction h
  case nil => exact h'
  case free hc _ ih => exact .free hc (ih h')
  case comma ih => exact .comma (ih h')
  case escape c _ ih => exact .escape c (ih h')
  case string hq hs _ ih => simpa using IsBalanced.string hq hs (ih h')
  case brackets hb hi _ _ ih => simpa using IsBalanced.brackets hb hi (ih h')

-- The characters that belong together at the beginning of a text, unless it is a backslash alone.
theorem exists_front (h : start.Passes (c :: cs) t) (ht : t.isFinal) : c :: cs = ['\\'] ∨
    ∃ front ds, c :: cs = front ++ ds ∧ front ≠ [] ∧ IsBalanced false front := by
  obtain ⟨u, hstep, hd, hp⟩ := h.of_cons
  have hstring := (Standing.eq_nil_of_isFinal ht).2
  cases Standing.step?_eq_some_iff.mp hstep
  case free hc => exact .inr ⟨[c], cs, rfl, nofun, .free hc .nil⟩
  case comma => exact absurd rfl (hd rfl)
  case escape =>
    cases cs
    case nil => exact .inl rfl
    case cons d cs => exact .inr ⟨['\\', d], cs, rfl, nofun, .escape d .nil⟩
  case quote hq =>
    obtain ⟨content, ds, rfl, hs, -⟩ := exists_isStringRest hp.walk hstring
    have hfront : IsBalanced false (c :: (content ++ [])) := .string hq hs .nil
    rw [List.append_nil] at hfront
    exact .inr ⟨c :: content, ds, rfl, nofun, hfront⟩
  case opens =>
    obtain ⟨inner, closing, ds, rfl, hb, hi, -⟩ := exists_isBalanced hp.walk ht
    exact .inr ⟨c :: (inner ++ [closing]), ds, by simp, nofun, .brackets hb hi .nil⟩

-- A text is checked and undivided exactly if it is that of a single selector.
theorem isPart_iff : IsPart cs ↔ IsSingle cs := by
  have hpasses {cs : List Char} (h : IsBalanced false cs) : start.Passes cs start := h.passes nofun
  constructor
  case mp =>
    rintro ⟨t, hp, ht⟩
    induction hn : cs.length using Nat.strongRecOn generalizing cs
    case ind n ih =>
      cases cs
      case nil => exact .inl .nil
      case cons c cs =>
        obtain hc | ⟨front, ds, hcs, hne, hf⟩ := exists_front hp ht
        · exact .inr ⟨[], hc, .nil⟩
        · rw [hcs] at hp hn ⊢
          have hpos := List.length_pos_iff.mpr hne
          rw [List.length_append] at hn
          obtain hds | ⟨back, rfl, hb⟩ := ih _ (by omega) ((hpasses hf).of_append hp) rfl
          · exact .inl (hf.append hds)
          · exact .inr ⟨front ++ back, (List.append_assoc ..).symm, hf.append hb⟩
  case mpr =>
    rintro (h | ⟨front, rfl, h⟩)
    · exact ⟨start, hpasses h, rfl⟩
    · exact ⟨⟨.escaped, []⟩, (hpasses h).append ⟨rfl, rfl⟩, rfl⟩

/-! ### The two readers -/

-- What is between the commas of a checked text is checked, and has no more of them.
theorem Parts.isPart {s : Standing} {ps : List (List Char)} (h : Parts s t ps) (hs : s = start)
    (ht : t.isFinal) : ∀ p ∈ ps, IsPart p := by
  induction h
  case last hp =>
    subst hs
    exact List.forall_mem_singleton.mpr ⟨_, hp, ht⟩
  case more hp _ ih =>
    subst hs
    exact List.forall_mem_cons.mpr ⟨⟨start, hp, rfl⟩, ih rfl ht⟩

theorem exists_ofText_iff {text : String} : (∃ selector, ofText text = .ok selector) ↔
    normalize text.toList ≠ [] ∧ IsSingle (normalize text.toList) := by
  simp only [ofText_eq_ok_iff, isPart_iff, exists_and_left, exists_eq, and_true]

theorem listOfText_singleton_iff {text : String} {selector : Selector} :
    listOfText text = .ok [selector] ↔ ofText text = .ok selector := by
  rw [listOfText_eq_ok_iff, ofText_eq_ok_iff]
  have htrim := trim_normalize text.toList
  generalize normalize text.toList = cs at htrim
  constructor
  case mp =>
    rintro ⟨hn, ⟨t, hw, ht⟩, -, hselectors⟩
    have hlength := congrArg List.length hselectors
    rw [List.length_map] at hlength
    have hsplit := Standing.split_of_length hlength.symm
    rw [hsplit, List.map_singleton, htrim] at hselectors
    exact ⟨hn, ⟨t, ⟨hw, hsplit⟩, ht⟩, (List.cons.inj hselectors).1⟩
  case mpr =>
    rintro ⟨hn, ⟨t, hp, ht⟩, rfl⟩
    rw [hp.split, List.map_singleton, htrim]
    exact ⟨hn, ⟨t, hp.walk, ht⟩, by simpa [htrim] using hn, rfl⟩

-- The text of a selector as a list has it.
structure IsEntry (p : List Char) : Prop where
  ne_nil : p ≠ []
  trimmed : Text.trim p = p
  isPart : IsPart p

theorem isEntry_of_mem_listOfText {text : String} {selectors : List Selector}
    (h : listOfText text = .ok selectors) : ∀ s ∈ selectors, IsEntry s.text.toList := by
  obtain ⟨-, ⟨t, hw, ht⟩, htrim, rfl⟩ := listOfText_eq_ok_iff.mp h
  refine List.forall_mem_map.mpr fun p hp => ?_
  rw [String.toList_ofList]
  exact ⟨htrim p hp, Text.trim_trim p, ((parts_splitTopLevel hw).isPart rfl ht p hp).trim⟩

-- A selector of a list could have been read alone.
theorem IsEntry.exists_ofText {text : String} (h : IsEntry text.toList) :
    ∃ selector, ofText text = .ok selector := by
  rw [exists_ofText_iff]
  refine ⟨?_, isPart_iff.mp h.isPart.normalize⟩
  rw [normalize_eq, h.trimmed]
  exact squeeze_ne_nil h.ne_nil

-- A selector is what is read as a list of just that one; and every selector of a list is the text
-- of a single one, and not empty.
theorem readers_agree :
    (∀ text selector, ofText text = .ok selector ↔ listOfText text = .ok [selector]) ∧
      ∀ text selectors, listOfText text = .ok selectors → ∀ s ∈ selectors,
        s.text ≠ "" ∧ IsSingle s.text.toList ∧ ∃ selector, ofText s.text = .ok selector := by
  refine ⟨fun _ _ => listOfText_singleton_iff.symm, fun _ _ h s hs => ?_⟩
  have hentry := isEntry_of_mem_listOfText h s hs
  refine ⟨fun he => hentry.ne_nil ?_, isPart_iff.mp hentry.isPart, hentry.exists_ofText⟩
  rw [he]
  rfl

-- A list with white space, brackets, a string and an escape in it.
theorem readers_agree_nested :
    listOfText " a  b,:is(c,\x22,\x22)\\," = .ok [⟨"a b"⟩, ⟨":is(c,\x22,\x22)\\,"⟩] ∧
      ⟨":is(c,\x22,\x22)\\,"⟩ ∈ [(⟨"a b"⟩ : Selector), ⟨":is(c,\x22,\x22)\\,"⟩] ∧
      ":is(c,\x22,\x22)\\," ≠ "" ∧ IsSingle ":is(c,\x22,\x22)\\,".toList ∧
      ∃ selector, ofText ":is(c,\x22,\x22)\\," = .ok selector := by
  have h : listOfText " a  b,:is(c,\x22,\x22)\\," =
      .ok [⟨"a b"⟩, ⟨":is(c,\x22,\x22)\\,"⟩] := by
    rfl
  have hs : ⟨":is(c,\x22,\x22)\\,"⟩ ∈ [(⟨"a b"⟩ : Selector), ⟨":is(c,\x22,\x22)\\,"⟩] :=
    List.mem_cons_of_mem _ List.mem_cons_self
  exact ⟨h, hs, readers_agree.2 _ _ h _ hs⟩

end Stylesheet.Selector
