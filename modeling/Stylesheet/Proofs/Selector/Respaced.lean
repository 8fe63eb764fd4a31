import Stylesheet.Proofs.Selector.Parts
/-!
White space in a checked text. Nothing depends on how much of it there is, or of what kind, but that
a backslash takes one character: so a text with less of it is checked and divided as before. Main
statements: `Selector.listOfText_eq_ok_iff`, `Selector.ofText_eq_ok_iff`,
`Selector.Standing.exists_walk?_squeezed`, `Selector.Standing.length_split_squeezed`.
-/

namespace Stylesheet

namespace Text

variable {cs : List Char}

theorem squeezed_refl {rest : List Char} (blank : Bool) (cs : List Char) :
    Squeezed rest blank cs cs := by
  induction cs generalizing blank
  case nil => exact .nil
  case cons ih => exact .keep (ih false)

theorem trim_of_ends (hs : ∀ c ∈ cs.head?, isBlank c = false)
    (hl : ∀ c ∈ cs.getLast?, isBlank c = false) : trim cs = cs := by
  have hstart : trimStart cs = cs := by
    cases cs
    case nil => rfl
    case cons c cs => exact List.dropWhile_cons_of_neg (by simp [hs c rfl])
  rw [trim, hstart, trimEnd_of_getLast hl]

theorem head_trim : ∀ c ∈ (trim cs).head?, isBlank c = false := by
  intro c hc
  obtain ⟨blanks, hcs, -⟩ := exists_trimEnd (trimStart cs)
  have hhead : (trimStart cs).head? = some c := by
    rw [hcs, List.head?_append, show (trimEnd (trimStart cs)).head? = some c from hc]
    rfl
  have := List.head?_dropWhile_not isBlank cs
  simpa [show (cs.dropWhile isBlank).head? = some c from hhead] using this

theorem getLast_trim : ∀ c ∈ (trim cs).getLast?, isBlank c = false :=
  getLast_trimEnd

theorem trim_trim (cs : List Char) : trim (trim cs) = trim cs :=
  trim_of_ends head_trim getLast_trim

theorem exists_trim (cs : List Char) : ∃ front back, cs = front ++ (trim cs ++ back) ∧
    (∀ c ∈ front, isBlank c) ∧ ∀ c ∈ back, isBlank c := by
  obtain ⟨back, hback, hblank⟩ := exists_trimEnd (trimStart cs)
  refine ⟨cs.takeWhile isBlank, back, ?_, List.all_eq_true.mp List.all_takeWhile, hblank⟩
  rw [trim, ← hback]
  exact List.takeWhile_append_dropWhile.symm

end Text

namespace Selector

open Text (Squeezed)

variable {context : Context} {blank : Bool} {c : Char} {cs ds : List Char}

theorem squeezed_trim (cs : List Char) : Squeezed [] true cs (Text.trim cs) := by
  obtain ⟨front, back, hcs, hfront, hback⟩ := Text.exists_trim cs
  generalize Text.trim cs = ds at hcs
  subst hcs
  induction front
  case nil =>
    rw [List.nil_append]
    exact squeezed_append hback (Text.squeezed_refl true ds)
  case cons ih =>
    obtain ⟨hc, hfront⟩ := List.forall_mem_cons.mp hfront
    exact .skip hc (ih hfront)

theorem trim_normalize (cs : List Char) : Text.trim (normalize cs) = normalize cs := by
  rw [normalize_eq]
  have hhead := @Text.head_trim cs
  have hlast := @Text.getLast_trim cs
  generalize Text.trim cs = cs at hhead hlast
  refine Text.trim_of_ends ?_ ?_
  · cases cs
    case nil => nofun
    case cons c cs => rwa [squeeze_keep (.inr (hhead c rfl))]
  · cases hl : cs.getLast?
    case none =>
      rw [List.getLast?_eq_none_iff] at hl
      subst hl
      nofun
    case some c =>
      obtain ⟨front, rfl⟩ := List.getLast?_eq_some_iff.mp hl
      obtain ⟨blank, happend, -⟩ := exists_squeeze_append false .plain front [c]
      rw [happend, squeeze_keep (.inr (hlast c hl)), squeeze]
      simpa using hlast c hl

theorem squeeze_ne_nil (h : cs ≠ []) : squeeze false context cs ≠ [] := by
  obtain ⟨c, cs, rfl⟩ := List.exists_cons_of_ne_nil h
  rw [squeeze]
  split <;> exact List.cons_ne_nil _ _

/-! ### Context -/

namespace Context

-- The context behind white space.
def settle : Context → Context
  | quoted q | quotedEscape q => quoted q
  | _ => plain

theorem settle_settle (context : Context) : context.settle.settle = context.settle := by
  cases context <;> rfl

theorem isProper_settle (h : context.isProper) : context.settle.isProper := by
  cases context <;> exact h

theorem next_of_isBlank (hp : context.isProper) (hc : Text.isBlank c) :
    context.next c = context.settle := by
  cases context
  case plain =>
    have hq : isQuote c = false :=
      eq_false_of_ne_true fun h => by simp [(of_isQuote h).1] at hc
    have hbackslash : c ≠ '\\' := by
      rintro rfl
      cases hc
    simp [next, hbackslash, hq, settle]
  case quoted => exact pass_quoted hp hc
  case escaped | quotedEscape => rfl

theorem isProper_next (h : context.isProper) (c : Char) : (context.next c).isProper := by
  cases context
  case plain =>
    simp only [next]
    split
    · rfl
    · split
      · assumption
      · rfl
  case escaped => rfl
  case quoted => exact isProper_pass h c
  case quotedEscape => exact h

end Context

/-! ### Standing -/

namespace Standing

variable {s t u : Standing}

def isProper (s : Standing) : Bool :=
  s.context.isProper

def settle (s : Standing) : Standing :=
  ⟨s.context.settle, s.brackets⟩

theorem isFinal_of_settle (h : s.settle.isFinal) : s.isFinal := by
  obtain ⟨context, brackets⟩ := s
  cases context <;> cases brackets <;> first | rfl | cases h

theorem isFree_of_isBlank (hc : Text.isBlank c) : isFree c := by
  have hne {d : Char} (hd : Text.isBlank d = false) : c ≠ d := by
    rintro rfl
    cases hc.symm.trans hd
  have hq : isQuote c = false :=
    eq_false_of_ne_true fun h => by simp [(Context.of_isQuote h).1] at hc
  simp [isFree, hq, hne (by decide : Text.isBlank '(' = false),
    hne (by decide : Text.isBlank '[' = false), hne (by decide : Text.isBlank ')' = false),
    hne (by decide : Text.isBlank ']' = false), hne (by decide : Text.isBlank '{' = false),
    hne (by decide : Text.isBlank '}' = false), hne (by decide : Text.isBlank ';' = false),
    hne (by decide : Text.isBlank ',' = false), hne (by decide : Text.isBlank '\\' = false)]

theorem step?_of_isBlank (hp : s.isProper) (hc : Text.isBlank c) : s.step? c = some s.settle := by
  have hnext := Context.next_of_isBlank hp hc
  obtain ⟨context, brackets⟩ := s
  cases context
  case plain => exact step?_eq_some_iff.mpr (.free (isFree_of_isBlank hc))
  all_goals exact congrArg (fun context => some (Standing.mk context brackets)) hnext

theorem isProper_of_step? (h : s.step? c = some t) (hp : s.isProper) : t.isProper := by
  rw [isProper, context_of_step? h]
  exact Context.isProper_next hp c

-- The walk over a text with less white space comes to the same standing, but for white space that
-- is left out at the end.
theorem exists_walk?_squeezed (h : Squeezed [] blank cs ds) (hp : s.isProper)
    (hb : blank → s.settle = s) (hw : s.walk? cs = some t) :
    ∃ u, s.walk? ds = some u ∧ (t = u ∨ t = u.settle) := by
  induction h generalizing s
  case nil => exact ⟨t, hw, .inl rfl⟩
  case keep ih =>
    obtain ⟨u, hstep, hw⟩ := exists_of_walk?_cons hw
    rw [walk?_cons hstep]
    exact ih (isProper_of_step? hstep hp) nofun hw
  case blank hc _ ih =>
    rw [walk?_cons (step?_of_isBlank hp hc)] at hw
    rw [walk?_cons (step?_of_isBlank hp (by decide))]
    refine ih (Context.isProper_settle hp) (fun _ => ?_) hw
    rw [settle, settle, Context.settle_settle]
  case skip hc _ ih =>
    rw [walk?_cons (step?_of_isBlank hp hc), hb rfl] at hw
    exact ih hp hb hw
  case last cs _ hblank =>
    refine ⟨s, rfl, ?_⟩
    clear hb
    induction cs generalizing s
    case nil => exact .inl (Option.some.inj hw).symm
    case cons c cs ih =>
      obtain ⟨hc, hcs⟩ := List.forall_mem_cons.mp hblank
      rw [walk?_cons (step?_of_isBlank hp hc)] at hw
      have ht := ih hcs (s := s.settle) (Context.isProper_settle hp) hw
      rw [settle, settle, Context.settle_settle, or_self] at ht
      exact .inr ht

theorem length_split_cons (h : s.step? c = some t) (hc : c ≠ ',') :
    (s.split (c :: cs)).length = (t.split cs).length := by
  rw [split_cons h fun _ => hc, List.length_modifyHead]

-- White space divides nothing.
theorem length_split_squeezed (h : Squeezed [] blank cs ds) (hp : s.isProper)
    (hb : blank → s.settle = s) (hw : s.walk? cs = some t) :
    (s.split ds).length = (s.split cs).length := by
  have hcomma {c : Char} (hc : Text.isBlank c) : c ≠ ',' := by
    rintro rfl
    cases hc
  induction h generalizing s
  case nil => rfl
  case keep c cs ds _ ih =>
    obtain ⟨u, hstep, hw⟩ := exists_of_walk?_cons hw
    have ih := ih (isProper_of_step? hstep hp) nofun hw
    by_cases hd : s = start ∧ c = ','
    case pos =>
      obtain ⟨rfl, rfl⟩ := hd
      obtain rfl := Option.some.inj (hstep.symm.trans step?_start_comma)
      rw [split_start_comma, split_start_comma, List.length_cons, List.length_cons, ih]
    case neg =>
      have hd : s = start → c ≠ ',' := fun hs hc => hd ⟨hs, hc⟩
      rw [split_cons hstep hd, split_cons hstep hd, List.length_modifyHead, List.length_modifyHead,
        ih]
  case blank hc _ ih =>
    rw [walk?_cons (step?_of_isBlank hp hc)] at hw
    rw [length_split_cons (step?_of_isBlank hp hc) (hcomma hc),
      length_split_cons (step?_of_isBlank hp (by decide)) (by decide)]
    refine ih (Context.isProper_settle hp) (fun _ => ?_) hw
    rw [settle, settle, Context.settle_settle]
  case skip hc _ ih =>
    have hstep := step?_of_isBlank hp hc
    rw [hb rfl] at hstep
    rw [length_split_cons hstep (hcomma hc)]
    exact ih hp hb ((walk?_cons hstep).symm.trans hw)
  case last cs _ hblank =>
    clear hb
    induction cs generalizing s
    case nil => rfl
    case cons c cs ih =>
      obtain ⟨hc, hcs⟩ := List.forall_mem_cons.mp hblank
      have hstep := step?_of_isBlank hp hc
      rw [walk?_cons hstep] at hw
      rw [length_split_cons hstep (hcomma hc)]
      exact ih (s := s.settle) hcs (Context.isProper_settle hp) hw

theorem split_of_length (h : (s.split cs).length = 1) : s.split cs = [cs] := by
  obtain ⟨p, hp⟩ := List.length_eq_one_iff.mp h
  have hjoin := @join_split s cs
  rw [hp, List.intercalate_singleton] at hjoin
  rw [hp, hjoin]

end Standing

/-! ### Selectors -/

open Standing (start)

-- Whether a text is checked and no comma divides it.
def IsPart (cs : List Char) : Prop :=
  ∃ t, start.Passes cs t ∧ t.isFinal

theorem IsPart.squeezed (h : IsPart cs) (hs : Squeezed [] blank cs ds) : IsPart ds := by
  obtain ⟨t, hp, hfinal⟩ := h
  have hsplit : start.split ds = [ds] := by
    refine Standing.split_of_length ?_
    rw [Standing.length_split_squeezed hs rfl (fun _ => rfl) hp.walk, hp.split]
    rfl
  obtain ⟨u, hu, rfl | rfl⟩ := Standing.exists_walk?_squeezed hs rfl (fun _ => rfl) hp.walk
  · exact ⟨t, ⟨hu, hsplit⟩, hfinal⟩
  · exact ⟨u, ⟨hu, hsplit⟩, Standing.isFinal_of_settle hfinal⟩

theorem IsPart.trim (h : IsPart cs) : IsPart (Text.trim cs) :=
  h.squeezed (squeezed_trim cs)

theorem IsPart.normalize (h : IsPart cs) : IsPart (normalize cs) := by
  rw [normalize_eq]
  exact h.trim.squeezed (squeezed_squeeze false .plain _)

theorem fault?_eq_none_iff : fault? cs = none ↔
    cs ≠ [] ∧ ∃ t, start.walk? cs = some t ∧ t.isFinal := by
  rw [fault?, ← Standing.check_eq_none_iff]
  cases cs
  case nil => simp
  case cons => exact ⟨fun h => ⟨List.cons_ne_nil _ _, h⟩, And.right⟩

theorem ofText_eq_ok_iff {text : String} {selector : Selector} : ofText text = .ok selector ↔
    normalize text.toList ≠ [] ∧ IsPart (normalize text.toList) ∧
      selector = ⟨String.ofList (normalize text.toList)⟩ := by
  rw [ofText]
  generalize normalize text.toList = cs
  have hf := @fault?_eq_none_iff cs
  split
  case h_1 fault hfault =>
    rw [hfault] at hf
    simp only [reduceCtorEq, false_iff, not_and] at hf ⊢
    exact fun hn ⟨t, hp, hfinal⟩ => absurd ⟨t, hp.walk, hfinal⟩ (hf hn)
  case h_2 hfault =>
    obtain ⟨hn, hw⟩ := hf.mp hfault
    split
    case isTrue hlength =>
      simp only [reduceCtorEq, false_iff, not_and]
      rintro _ ⟨t, hp, -⟩
      have : (start.split cs).length = 1 := by rw [hp.split]; rfl
      exact absurd this (Nat.ne_of_gt hlength)
    case isFalse hlength =>
      have hpos := List.length_pos_iff.mpr (@Standing.split_ne_nil start cs)
      have hone : (start.split cs).length = 1 :=
        Nat.le_antisymm (Nat.not_lt.mp hlength) hpos
      obtain ⟨t, hw, hfinal⟩ := hw
      have hpart : IsPart cs := ⟨t, ⟨hw, Standing.split_of_length hone⟩, hfinal⟩
      simp [hn, hpart, eq_comm]

theorem listOfText_eq_ok_iff {text : String} {selectors : List Selector} :
    listOfText text = .ok selectors ↔ normalize text.toList ≠ [] ∧
      (∃ t, start.walk? (normalize text.toList) = some t ∧ t.isFinal) ∧
      (∀ p ∈ start.split (normalize text.toList), Text.trim p ≠ []) ∧
      selectors = (start.split (normalize text.toList)).map
        fun p => ⟨String.ofList (Text.trim p)⟩ := by
  rw [listOfText]
  generalize normalize text.toList = cs
  dsimp only
  have hf := @fault?_eq_none_iff cs
  split
  case h_1 fault hfault =>
    rw [hfault] at hf
    simp only [reduceCtorEq, false_iff, not_and] at hf ⊢
    exact fun hn h => absurd h (hf hn)
  case h_2 hfault =>
    obtain ⟨hn, hw⟩ := hf.mp hfault
    have hany : ((start.split cs).map Text.trim).any List.isEmpty = false ↔
        ∀ p ∈ start.split cs, Text.trim p ≠ [] := by
      simp
    split
    case isTrue h =>
      simp only [reduceCtorEq, false_iff, not_and]
      intro _ _ hp
      exact absurd (h.symm.trans (hany.mpr hp)) (by decide)
    case isFalse h =>
      have hp := hany.mp (eq_false_of_ne_true h)
      rw [List.map_map]
      constructor
      case mp => exact fun h => ⟨hn, hw, hp, (Except.ok.inj h).symm⟩
      case mpr =>
        rintro ⟨-, -, -, rfl⟩
        rfl

end Selector
end Stylesheet
