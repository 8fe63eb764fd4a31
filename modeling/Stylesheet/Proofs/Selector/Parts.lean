import Stylesheet.Proofs.Selector.Squeezed
/-!
The parts of a list of selectors. The check of a text and its division at commas walk in step: they
are in the same context, and the depth of the one is how many brackets are open for the other. So
the parts of a checked text are checked and undivided themselves, and parts like that are what
their text is divided into. Main statements: `Selector.parts_splitTopLevel`,
`Selector.Parts.splitTopLevel_join`.
-/

namespace Stylesheet.Selector

-- Where a walk over a text stands: its context and the open brackets, innermost first.
structure Standing where
  context : Context
  brackets : List Char

namespace Standing

def start : Standing :=
  ⟨.plain, []⟩

-- Whether a text may end here. A backslash may be the last character.
def isFinal : Standing → Bool
  | ⟨.plain, []⟩ | ⟨.escaped, []⟩ => true
  | _ => false

-- What a character does outside strings and escapes, if it may stand there.
def stepPlain? (brackets : List Char) (c : Char) : Option Standing :=
  if c = '(' || c = '[' then some ⟨.plain, c :: brackets⟩
  else if c = ')' || c = ']' then
    match brackets with
    | bracket :: brackets => if bracket = opening c then some ⟨.plain, brackets⟩ else none
    | [] => none
  else if c = '{' || c = '}' || c = ';' then none
  else some ⟨Context.next .plain c, brackets⟩

-- The standing behind one more character.
def step? : Standing → Char → Option Standing
  | ⟨.plain, brackets⟩, c => stepPlain? brackets c
  | ⟨context, brackets⟩, c => some ⟨context.next c, brackets⟩

def walk? (s : Standing) (cs : List Char) : Option Standing :=
  cs.foldlM step? s

-- Division at commas, from where a walk stands.
def split (s : Standing) (cs : List Char) : List (List Char) :=
  splitTopLevel s.context s.brackets.length cs

variable {s t u : Standing} {c : Char} {brackets cs ds p : List Char}

-- Whether a character stands for nothing but itself.
def isFree (c : Char) : Bool :=
  !(isQuote c || ['(', '[', ')', ']', '{', '}', ';', ',', '\\'].contains c)

theorem of_isFree (h : isFree c) : isQuote c = false ∧ c ≠ '(' ∧ c ≠ '[' ∧ c ≠ ')' ∧ c ≠ ']' ∧
    c ≠ '{' ∧ c ≠ '}' ∧ c ≠ ';' ∧ c ≠ ',' ∧ c ≠ '\\' := by
  simpa [isFree] using h

theorem eq_of_isQuote (h : isQuote c) : c = '\x22' ∨ c = '\x27' := by
  simpa [isQuote] using h

inductive Closes : Char → Char → Prop
  | round : Closes '(' ')'
  | square : Closes '[' ']'

-- What a character does outside strings and escapes.
inductive StepsTo : List Char → Char → Standing → Prop
  | free {brackets : List Char} {c : Char} (hc : isFree c) : StepsTo brackets c ⟨.plain, brackets⟩
  | comma {brackets : List Char} : StepsTo brackets ',' ⟨.plain, brackets⟩
  | escape {brackets : List Char} : StepsTo brackets '\\' ⟨.escaped, brackets⟩
  | quote {brackets : List Char} {c : Char} (hc : isQuote c) :
    StepsTo brackets c ⟨.quoted c, brackets⟩
  | opens {brackets : List Char} {c : Char} (hc : c = '(' ∨ c = '[') :
    StepsTo brackets c ⟨.plain, c :: brackets⟩
  | closes {brackets : List Char} {bracket c : Char} (hc : Closes bracket c) :
    StepsTo (bracket :: brackets) c ⟨.plain, brackets⟩

theorem stepsTo_next (hopens : ¬(c = '(' ∨ c = '[')) (hcloses : ¬(c = ')' ∨ c = ']'))
    (hbrace : ¬((c = '{' ∨ c = '}') ∨ c = ';')) :
    StepsTo brackets c ⟨Context.next .plain c, brackets⟩ := by
  rw [Context.next]
  split
  case isTrue hc =>
    subst hc
    exact .escape
  case isFalse hescape =>
    split
    case isTrue hc => exact .quote hc
    case isFalse hquote =>
      by_cases hc : c = ','
      case pos =>
        subst hc
        exact .comma
      case neg =>
        refine .free ?_
        simp_all [isFree]

theorem stepsTo_of_stepPlain? (h : stepPlain? brackets c = some t) : StepsTo brackets c t := by
  simp only [stepPlain?, Bool.or_eq_true, decide_eq_true_eq] at h
  split at h
  case isTrue hc =>
    cases h
    exact .opens hc
  case isFalse hopens =>
    split at h
    case isTrue hc =>
      split at h
      case h_1 bracket brackets =>
        split at h
        case isTrue hb =>
          cases h
          rcases hc with rfl | rfl
          · exact hb ▸ .closes .round
          · exact hb ▸ .closes .square
        case isFalse => cases h
      case h_2 => cases h
    case isFalse hcloses =>
      split at h
      case isTrue => cases h
      case isFalse hbrace =>
        cases h
        exact stepsTo_next hopens hcloses hbrace

theorem step?_eq_some_iff :
    step? ⟨.plain, brackets⟩ c = some t ↔ StepsTo brackets c t := by
  constructor
  case mp => exact stepsTo_of_stepPlain?
  case mpr =>
    rintro (hc | _ | _ | hc | hc | hc)
    case free => simp [step?, stepPlain?, Context.next, of_isFree hc]
    case comma | escape => rfl
    case quote => rcases eq_of_isQuote hc with rfl | rfl <;> rfl
    case opens => rcases hc with rfl | rfl <;> rfl
    case closes => cases hc <;> rfl

theorem context_of_step? (h : s.step? c = some t) : t.context = s.context.next c := by
  obtain ⟨context, brackets⟩ := s
  cases context
  case plain =>
    cases step?_eq_some_iff.mp h
    case free hc => simp [Context.next, of_isFree hc]
    case comma | escape => rfl
    case quote hc => rcases eq_of_isQuote hc with rfl | rfl <;> rfl
    case opens hc => rcases hc with rfl | rfl <;> rfl
    case closes hc => cases hc <;> rfl
  all_goals
    cases h
    rfl

theorem walk?_cons (h : s.step? c = some t) : s.walk? (c :: cs) = t.walk? cs := by
  simp [walk?, h]

theorem exists_of_walk?_cons (h : s.walk? (c :: cs) = some t) :
    ∃ u, s.step? c = some u ∧ u.walk? cs = some t := by
  simpa [walk?, Option.bind_eq_some_iff] using h

theorem walk?_append (h : s.walk? cs = some t) : s.walk? (cs ++ ds) = t.walk? ds := by
  simp only [walk?] at h
  simp [walk?, h]

/-! ### The check -/

theorem check_cons : check s.context s.brackets (c :: cs) = none ↔
    ∃ t, s.step? c = some t ∧ check t.context t.brackets cs = none := by
  obtain ⟨context, brackets⟩ := s
  cases context
  case plain =>
    have hfree : (if c = '{' || c = '}' || c = ';' then some (.unexpected c)
        else check (Context.next .plain c) brackets cs) = none ↔
        ∃ t, (if c = '{' || c = '}' || c = ';' then none
          else some (⟨Context.next .plain c, brackets⟩ : Standing)) = some t ∧
          check t.context t.brackets cs = none := by
      split <;> simp
    cases brackets
    case nil =>
      rw [check.eq_def, step?, stepPlain?]
      dsimp only
      split
      · simp
      · split
        · simp
        · exact hfree
    case cons bracket brackets =>
      rw [check.eq_def, step?, stepPlain?]
      dsimp only
      split
      · simp
      · split
        · split <;> simp
        · exact hfree
  all_goals simp [check, step?]

theorem check_nil : check s.context s.brackets [] = none ↔ s.isFinal := by
  obtain ⟨context, brackets⟩ := s
  cases context <;> cases brackets <;> simp [check, isFinal]

theorem check_eq_none_iff : check s.context s.brackets cs = none ↔
    ∃ t, s.walk? cs = some t ∧ t.isFinal := by
  induction cs generalizing s
  case nil => simp [check_nil, walk?]
  case cons c cs ih =>
    rw [check_cons]
    constructor
    case mp =>
      rintro ⟨u, hu, hcs⟩
      rw [walk?_cons hu]
      exact ih.mp hcs
    case mpr =>
      rintro ⟨t, ht, hfinal⟩
      obtain ⟨u, hu, hw⟩ := exists_of_walk?_cons ht
      exact ⟨u, hu, ih.mpr ⟨t, hw, hfinal⟩⟩

/-! ### Division -/

theorem split_ne_nil : s.split cs ≠ [] := by
  have hprepend (c : Char) (parts : List (List Char)) :
      splitTopLevel.prepend c parts ≠ [] := by
    cases parts <;> exact List.cons_ne_nil _ _
  unfold split splitTopLevel
  split
  · exact List.cons_ne_nil _ _
  · split
    · exact List.cons_ne_nil _ _
    · exact hprepend _ _
  · exact hprepend _ _

theorem split_start_comma : start.split (',' :: cs) = [] :: start.split cs := by
  simp [split, start, splitTopLevel]

theorem step?_start_comma : start.step? ',' = some start := by
  rfl

-- A comma divides only where nothing is open.
theorem split_cons (h : s.step? c = some t) (hd : s = start → c ≠ ',') :
    s.split (c :: cs) = (t.split cs).modifyHead (c :: ·) := by
  have hprepend : splitTopLevel.prepend c (t.split cs) = (t.split cs).modifyHead (c :: ·) := by
    cases hs : t.split cs
    case nil => exact absurd hs split_ne_nil
    case cons => rfl
  rw [← hprepend]
  obtain ⟨context, brackets⟩ := s
  cases context
  case plain =>
    have hcomma : ¬(c = ',' && decide (brackets.length = 0)) := by
      simp only [Bool.and_eq_true, decide_eq_true_eq, List.length_eq_zero_iff, not_and]
      rintro rfl rfl
      exact hd rfl rfl
    simp only [split, splitTopLevel, if_neg hcomma, ← context_of_step? h]
    cases step?_eq_some_iff.mp h
    case free hc => simp [of_isFree hc]
    case comma | escape => rfl
    case quote hc => rcases eq_of_isQuote hc with rfl | rfl <;> rfl
    case opens hc => rcases hc with rfl | rfl <;> rfl
    case closes hc => cases hc <;> rfl
  all_goals
    cases h
    rfl

theorem modifyHead_eq_singleton {parts : List (List Char)}
    (h : parts.modifyHead (c :: ·) = [c :: p]) : parts = [p] := by
  cases parts
  case nil => cases h
  case cons => simpa using h

-- A text that may stand between two standings and that no comma divides.
structure Passes (s : Standing) (cs : List Char) (t : Standing) : Prop where
  walk : s.walk? cs = some t
  split : s.split cs = [cs]

namespace Passes

theorem nil (s : Standing) : s.Passes [] s :=
  ⟨rfl, rfl⟩

theorem cons (hstep : s.step? c = some t) (hd : s = start → c ≠ ',') (h : t.Passes cs u) :
    s.Passes (c :: cs) u := by
  refine ⟨(walk?_cons hstep).trans h.walk, ?_⟩
  rw [split_cons hstep hd, h.split]
  rfl

-- No comma divides behind a backslash or in a string.
theorem cons_of_ne_plain {context : Context} (hc : context ≠ .plain)
    (h : Passes ⟨context.next c, brackets⟩ cs u) : Passes ⟨context, brackets⟩ (c :: cs) u := by
  refine h.cons ?_ fun hs => absurd (congrArg Standing.context hs) hc
  cases context
  case plain => contradiction
  all_goals rfl

theorem of_cons (h : s.Passes (c :: cs) u) :
    ∃ t, s.step? c = some t ∧ (s = start → c ≠ ',') ∧ t.Passes cs u := by
  obtain ⟨t, hstep, hw⟩ := exists_of_walk?_cons h.walk
  have hd : s = start → c ≠ ',' := by
    rintro rfl rfl
    simpa [split_start_comma] using h.split
  have hu := h.split
  rw [split_cons hstep hd] at hu
  exact ⟨t, hstep, hd, hw, modifyHead_eq_singleton hu⟩

theorem split_append (h : s.Passes p t) :
    s.split (p ++ cs) = (t.split cs).modifyHead (p ++ ·) := by
  induction p generalizing s
  case nil =>
    cases h.walk
    rw [List.nil_append]
    cases t.split cs <;> rfl
  case cons c p ih =>
    obtain ⟨u, hstep, hd, h⟩ := h.of_cons
    rw [List.cons_append, split_cons hstep hd, ih h]
    cases t.split cs <;> rfl

theorem of_append (h : s.Passes p t) (h' : s.Passes (p ++ cs) u) : t.Passes cs u := by
  refine ⟨(walk?_append h.walk).symm.trans h'.walk, ?_⟩
  have hu := h'.split
  rw [h.split_append] at hu
  cases hs : t.split cs
  case nil => exact absurd hs split_ne_nil
  case cons q qs => simpa [hs] using hu

theorem append (h : s.Passes p t) (h' : t.Passes cs u) : s.Passes (p ++ cs) u := by
  refine ⟨(walk?_append h.walk).trans h'.walk, ?_⟩
  rw [h.split_append, h'.split]
  rfl

end Passes

theorem join_split : [','].intercalate (s.split cs) = cs := by
  have hprepend (c : Char) (parts : List (List Char)) : [','].intercalate
      (splitTopLevel.prepend c parts) = c :: [','].intercalate parts := by
    match parts with
    | [] | [_] | _ :: _ :: _ => simp [splitTopLevel.prepend, List.intercalate]
  rw [split]
  generalize s.context = context, s.brackets.length = depth
  fun_induction splitTopLevel context depth cs
  case case1 => rfl
  case case2 depth c cs hc ih =>
    simp only [Bool.and_eq_true, decide_eq_true_eq] at hc
    obtain ⟨rfl, rfl⟩ := hc
    obtain ⟨q, qs, hq⟩ := List.exists_cons_of_ne_nil (@split_ne_nil start cs)
    have hq : splitTopLevel .plain 0 cs = q :: qs := hq
    rw [hq] at ih ⊢
    simpa [List.intercalate] using ih
  case case3 ih => rw [hprepend, ih]
  case case4 ih => rw [hprepend, ih]

end Standing

open Standing (start)

variable {s t : Standing} {c : Char} {cs : List Char} {ps : List (List Char)}

-- Parts that no comma divides, between the standings in front and behind. Where one ends that is
-- not the last, nothing is open.
inductive Parts : Standing → Standing → List (List Char) → Prop
  | last {s t : Standing} {p : List Char} (hp : s.Passes p t) : Parts s t [p]
  | more {s t : Standing} {p : List Char} {ps : List (List Char)} (hp : s.Passes p start)
    (h : Parts start t ps) : Parts s t (p :: ps)

theorem parts_splitTopLevel (h : s.walk? cs = some t) : Parts s t (s.split cs) := by
  induction cs generalizing s
  case nil =>
    cases h
    exact .last (.nil _)
  case cons c cs ih =>
    obtain ⟨u, hstep, hw⟩ := Standing.exists_of_walk?_cons h
    by_cases hd : s = start ∧ c = ','
    case pos =>
      obtain ⟨rfl, rfl⟩ := hd
      cases hstep
      rw [Standing.split_start_comma]
      exact .more (.nil start) (ih hw)
    case neg =>
      have hd : s = start → c ≠ ',' := fun hs hc => hd ⟨hs, hc⟩
      have hparts := ih hw
      rw [Standing.split_cons hstep hd]
      generalize u.split cs = ps at hparts
      cases hparts
      case last hp => exact .last (.cons hstep hd hp)
      case more hp h => exact .more (.cons hstep hd hp) h

theorem Parts.ne_nil (h : Parts s t ps) : ps ≠ [] := by
  cases h <;> exact List.cons_ne_nil _ _

theorem join_cons (p : List Char) (h : ps ≠ []) :
    [','].intercalate (p :: ps) = p ++ ',' :: [','].intercalate ps := by
  rw [List.intercalate_cons_of_ne_nil h, List.append_assoc]
  rfl

-- Parts are what their text is divided into.
theorem Parts.splitTopLevel_join (h : Parts s t ps) :
    s.walk? ([','].intercalate ps) = some t ∧ s.split ([','].intercalate ps) = ps := by
  induction h
  case last hp => simpa [List.intercalate] using ⟨hp.walk, hp.split⟩
  case more hp h ih =>
    obtain ⟨hwalk, hsplit⟩ := ih
    rw [join_cons _ h.ne_nil, Standing.walk?_append hp.walk, hp.split_append,
      Standing.walk?_cons Standing.step?_start_comma, Standing.split_start_comma, hsplit]
    exact ⟨hwalk, by simp⟩

end Stylesheet.Selector
