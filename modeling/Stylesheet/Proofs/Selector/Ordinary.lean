import Stylesheet.Proofs.Text.Case
import Stylesheet.Selector
/-!
Selectors of ordinary characters: of such as no selector is divided or closed at, letters among
them. They are kept as they are. Main statement: `Selector.listOfText_ordinary`.
-/

namespace Stylesheet

variable {c : Char} {cs : List Char}

namespace Selector

-- Whether a character is one that a selector is not divided, closed or left at.
def isOrdinary (c : Char) : Bool :=
  !(Text.isBlank c || isQuote c || ['(', '[', ')', ']', '{', '}', ';', ',', '\\'].contains c)

theorem isOrdinary_of_isAlpha (h : c.isAlpha) : isOrdinary c := by
  have := Text.of_isAscii (p := fun c => !c.isAlpha || isOrdinary c) (by decide)
    (Text.isAscii_of_isAlpha h)
  simpa [h] using this

theorem next_plain (h : isOrdinary c) : Context.next .plain c = .plain := by
  simp_all [isOrdinary, Context.next]

theorem collapse_ordinary (h : ∀ c ∈ cs, isOrdinary c) : collapse false .plain cs = cs := by
  induction cs
  case nil => rfl
  case cons c cs ih =>
    obtain ⟨hc, hcs⟩ := List.forall_mem_cons.mp h
    have hq : isQuote c = false := by simp_all [isOrdinary]
    have hb : Text.isBlank c = false := by simp_all [isOrdinary]
    rw [collapse, if_neg (by simp [hb])]
    · simp [hq, ih hcs]
    all_goals nofun

theorem check_ordinary (h : ∀ c ∈ cs, isOrdinary c) : check .plain [] cs = none := by
  induction cs
  case nil => rfl
  case cons c cs ih =>
    obtain ⟨hc, hcs⟩ := List.forall_mem_cons.mp h
    have hn := next_plain hc
    simp only [isOrdinary, List.contains_cons, Bool.not_eq_true', Bool.or_eq_false_iff,
      beq_eq_false_iff_ne] at hc
    rw [check, hn, ih hcs]
    simp [hc]

theorem splitTopLevel_ordinary (h : ∀ c ∈ cs, isOrdinary c) :
    splitTopLevel .plain 0 cs = [cs] := by
  induction cs
  case nil => rfl
  case cons c cs ih =>
    obtain ⟨hc, hcs⟩ := List.forall_mem_cons.mp h
    have hn := next_plain hc
    simp only [isOrdinary, List.contains_cons, Bool.not_eq_true', Bool.or_eq_false_iff,
      beq_eq_false_iff_ne] at hc
    rw [splitTopLevel, hn]
    simp [hc, ih hcs, splitTopLevel.prepend]

theorem dropWhile_ordinary (h : ∀ c ∈ cs, isOrdinary c) : cs.dropWhile Text.isBlank = cs := by
  cases cs
  case nil => rfl
  case cons c cs =>
    have := h c List.mem_cons_self
    exact List.dropWhile_cons_of_neg (by simp_all [isOrdinary])

theorem trim_ordinary (h : ∀ c ∈ cs, isOrdinary c) {blanks : List Char}
    (hb : ∀ c ∈ blanks, Text.isBlank c) : Text.trim (cs ++ blanks) = cs := by
  have hstart : Text.trimStart (cs ++ blanks) = cs ++ if cs.isEmpty then [] else blanks := by
    cases cs
    case nil =>
      have := @List.dropWhile_append_of_pos _ Text.isBlank blanks [] hb
      simpa [Text.trimStart] using this
    case cons c cs =>
      have := h c List.mem_cons_self
      exact List.dropWhile_cons_of_neg (by simp_all [isOrdinary])
  have hback : ∀ c ∈ (if cs.isEmpty then [] else blanks).reverse, Text.isBlank c := by
    split
    case isTrue => exact List.forall_mem_nil _
    case isFalse => simpa using hb
  rw [Text.trim, hstart, Text.trimEnd, List.reverse_append, List.dropWhile_append_of_pos hback,
    dropWhile_ordinary (by simpa using h), List.reverse_reverse]

-- Text of ordinary characters is the one selector of its list, whatever blanks are behind it.
theorem listOfText_ordinary (hn : cs ≠ []) (h : ∀ c ∈ cs, isOrdinary c) {blanks : List Char}
    (hb : ∀ c ∈ blanks, Text.isBlank c) :
    listOfText (String.ofList (cs ++ blanks)) = .ok [⟨String.ofList cs⟩] := by
  have ht := @trim_ordinary cs h [] (List.forall_mem_nil _)
  rw [List.append_nil] at ht
  simp only [listOfText, String.toList_ofList, normalize, trim_ordinary h hb,
    collapse_ordinary h, fault?, check_ordinary h, splitTopLevel_ordinary h]
  simp [hn, ht]
end Selector
end Stylesheet
