import Stylesheet.Proofs.Text.LineEnds
import Stylesheet.Text.Blank
/-!
Texts without the white space at their ends. Line ends are white space, so it does not matter
whether they are unified before or behind. Main statement: `Text.trim_unifyLineEnds`.
-/

namespace Stylesheet.Text

variable {c : Char} {cs ds : List Char}

theorem trimEnd_concat (h : isBlank c = false) : trimEnd (cs ++ [c]) = cs ++ [c] := by
  simp [trimEnd, h]

theorem trimEnd_concat_blank (h : isBlank c) : trimEnd (cs ++ [c]) = trimEnd cs := by
  simp [trimEnd, h]

theorem trimEnd_of_getLast (h : ∀ c ∈ cs.getLast?, isBlank c = false) : trimEnd cs = cs := by
  cases hl : cs.getLast?
  case none =>
    rw [List.getLast?_eq_none_iff] at hl
    subst hl
    rfl
  case some c =>
    obtain ⟨ds, rfl⟩ := List.getLast?_eq_some_iff.mp hl
    exact trimEnd_concat (h c hl)

theorem getLast_trimEnd : ∀ c ∈ (trimEnd cs).getLast?, isBlank c = false := by
  intro c hc
  rw [trimEnd, List.getLast?_reverse] at hc
  have := List.head?_dropWhile_not isBlank cs.reverse
  simpa [show _ = some c from hc] using this

theorem trimEnd_append (hn : trimEnd ds ≠ []) : trimEnd (cs ++ ds) = cs ++ trimEnd ds := by
  have hdrop : ds.reverse.dropWhile isBlank ≠ [] := fun h => hn (by rw [trimEnd, h]; rfl)
  rw [trimEnd, List.reverse_append, List.dropWhile_append, if_neg (by simpa using hdrop),
    List.reverse_append, List.reverse_reverse, ← trimEnd]

theorem trimEnd_append_of_isBlank (h : ∀ c ∈ ds, isBlank c) : trimEnd (cs ++ ds) = trimEnd cs := by
  rw [trimEnd, List.reverse_append,
    List.dropWhile_append_of_pos fun c hc => h c (List.mem_reverse.mp hc), ← trimEnd]

theorem trimEnd_of_isBlank (h : ∀ c ∈ cs, isBlank c) : trimEnd cs = [] :=
  @trimEnd_append_of_isBlank [] cs h

theorem exists_trimEnd (cs : List Char) :
    ∃ blanks, cs = trimEnd cs ++ blanks ∧ ∀ c ∈ blanks, isBlank c := by
  refine ⟨(cs.reverse.takeWhile isBlank).reverse, ?_, fun c hc => ?_⟩
  · rw [trimEnd, ← List.reverse_append, List.takeWhile_append_dropWhile, List.reverse_reverse]
  · exact List.all_eq_true.mp List.all_takeWhile c (List.mem_reverse.mp hc)

theorem isBlank_of_trimEnd (h : trimEnd cs = []) : ∀ c ∈ cs, isBlank c := by
  obtain ⟨blanks, hcs, hblanks⟩ := exists_trimEnd cs
  rw [h, List.nil_append] at hcs
  rwa [hcs]

/-! ### Line ends -/

-- A line end is white space before and behind.
theorem isBlank_unified (c : Char) :
    isBlank (if c = '\r' || c = '\x0c' then '\n' else c) = isBlank c := by
  split
  case isTrue h =>
    simp only [Bool.or_eq_true, decide_eq_true_eq] at h
    rcases h with rfl | rfl <;> decide
  case isFalse => rfl

theorem isBlank_unifyLineEnds (h : ∀ c ∈ cs, isBlank c) : ∀ c ∈ unifyLineEnds cs, isBlank c := by
  fun_induction unifyLineEnds cs
  case case1 => exact h
  case case2 ih =>
    obtain ⟨-, h⟩ := List.forall_mem_cons.mp h
    obtain ⟨-, h⟩ := List.forall_mem_cons.mp h
    exact List.forall_mem_cons.mpr ⟨by decide, ih h⟩
  case case3 c rest _ ih =>
    obtain ⟨hc, h⟩ := List.forall_mem_cons.mp h
    exact List.forall_mem_cons.mpr ⟨(isBlank_unified c).trans hc, ih h⟩

theorem trimStart_unifyLineEnds (cs : List Char) :
    trimStart (unifyLineEnds cs) = unifyLineEnds (trimStart cs) := by
  fun_induction unifyLineEnds cs
  case case1 => rfl
  case case2 rest ih =>
    have hr : isBlank '\r' := by decide
    have hn : isBlank '\n' := by decide
    simpa only [trimStart, List.dropWhile_cons_of_pos hr, List.dropWhile_cons_of_pos hn] using ih
  case case3 c rest hc ih =>
    by_cases hb : isBlank c
    case pos =>
      have hb' := (isBlank_unified c).trans hb
      simpa only [trimStart, List.dropWhile_cons_of_pos hb, List.dropWhile_cons_of_pos hb'] using ih
    case neg =>
      have hb' : ¬isBlank (if c = '\r' || c = '\x0c' then '\n' else c) := by rwa [isBlank_unified]
      simp only [trimStart, List.dropWhile_cons_of_neg hb, List.dropWhile_cons_of_neg hb',
        unifyLineEnds.eq_3 c rest hc]

theorem getLast_unifyLineEnds (h : ∀ c ∈ cs.getLast?, isBlank c = false) :
    ∀ c ∈ (unifyLineEnds cs).getLast?, isBlank c = false := by
  cases hl : cs.getLast?
  case none =>
    rw [List.getLast?_eq_none_iff] at hl
    subst hl
    nofun
  case some c =>
    obtain ⟨ds, rfl⟩ := List.getLast?_eq_some_iff.mp hl
    have hc := h c hl
    have hne {d : Char} (hd : isBlank d) : c ≠ d := by
      rintro rfl
      cases hc.symm.trans hd
    have hunified : isUnified [c] := by
      simp [isUnified, hne (by decide : isBlank '\r'), hne (by decide : isBlank '\x0c')]
    obtain happend | ⟨es, he, -⟩ := @unifyLineEnds_append ds [c]
    case inl =>
      rw [happend, unifyLineEnds_of_isUnified hunified]
      simpa using hc
    case inr => exact absurd (List.cons.inj he).1 (hne (by decide))

theorem trimEnd_unifyLineEnds (cs : List Char) :
    trimEnd (unifyLineEnds cs) = unifyLineEnds (trimEnd cs) := by
  have hkept := trimEnd_of_getLast (getLast_unifyLineEnds (@getLast_trimEnd cs))
  obtain ⟨blanks, hcs, hblanks⟩ := exists_trimEnd cs
  obtain happend | ⟨es, rfl, happend⟩ := @unifyLineEnds_append (trimEnd cs) blanks
  case inl =>
    rw [← hcs] at happend
    rw [happend, trimEnd_append_of_isBlank (isBlank_unifyLineEnds hblanks), hkept]
  case inr =>
    rw [← hcs] at happend
    rw [happend, trimEnd_append_of_isBlank
      (isBlank_unifyLineEnds (List.forall_mem_cons.mp hblanks).2), hkept]

theorem trim_unifyLineEnds (cs : List Char) :
    trim (unifyLineEnds cs) = unifyLineEnds (trim cs) := by
  rw [trim, trimStart_unifyLineEnds, trimEnd_unifyLineEnds, trim]

end Stylesheet.Text
