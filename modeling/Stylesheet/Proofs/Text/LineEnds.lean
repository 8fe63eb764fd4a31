import Stylesheet.Proofs.Text.Case
import Stylesheet.Text.Escaped
import Stylesheet.Text.Position
/-!
Texts without carriage returns and form feeds: their line ends are unified already. Escapes leave
none in names and strings. Main statement: `Text.unifyLineEnds_of_isUnified`.
-/

namespace Stylesheet.Text

variable {c : Char} {cs : List Char}

def isUnified (cs : List Char) : Bool :=
  cs.all fun c => c != '\r' && c != '\x0c'

theorem isUnified_append {ds : List Char} : isUnified (cs ++ ds) ↔ isUnified cs ∧ isUnified ds := by
  simp [isUnified]

theorem isUnified_cons : isUnified (c :: cs) ↔ (c ≠ '\r' ∧ c ≠ '\x0c') ∧ isUnified cs := by
  simp [isUnified]

theorem isUnified_flatMap {g : Char → List Char} (h : ∀ c, isUnified (g c)) :
    isUnified (cs.flatMap g) := by
  induction cs
  case nil => rfl
  case cons ih => exact isUnified_append.mpr ⟨h _, ih⟩

theorem unifyLineEnds_cons (hr : c ≠ '\r') (hf : c ≠ '\x0c') :
    unifyLineEnds (c :: cs) = c :: unifyLineEnds cs := by
  rw [unifyLineEnds.eq_3 _ _ fun _ h => absurd h hr]
  simp [hr, hf]

theorem unifyLineEnds_of_isUnified (h : isUnified cs) : unifyLineEnds cs = cs := by
  fun_induction unifyLineEnds cs
  case case1 => rfl
  case case2 => exact absurd rfl (isUnified_cons.mp h).1.1
  case case3 hc ih =>
    obtain ⟨⟨hr, hf⟩, ht⟩ := isUnified_cons.mp h
    simp [hr, hf, ih ht]

-- A line end that is cut in two is one line end, and two when the parts are alone.
theorem unifyLineEnds_append {ds : List Char} :
    unifyLineEnds (cs ++ ds) = unifyLineEnds cs ++ unifyLineEnds ds ∨
      ∃ es, ds = '\n' :: es ∧ unifyLineEnds (cs ++ ds) = unifyLineEnds cs ++ unifyLineEnds es := by
  fun_induction unifyLineEnds cs
  case case1 => exact .inl rfl
  case case2 rest ih =>
    obtain h | ⟨es, hd, h⟩ := ih
    · exact .inl (by simp [unifyLineEnds, h])
    · exact .inr ⟨es, hd, by simp [unifyLineEnds, h]⟩
  case case3 c rest hc ih =>
    by_cases hcut : c = '\r' ∧ rest = [] ∧ ∃ es, ds = '\n' :: es
    case pos =>
      obtain ⟨rfl, rfl, es, rfl⟩ := hcut
      exact .inr ⟨es, rfl, by simp [unifyLineEnds]⟩
    case neg =>
      have hline : unifyLineEnds (c :: (rest ++ ds)) =
          (if c = '\r' || c = '\x0c' then '\n' else c) :: unifyLineEnds (rest ++ ds) := by
        refine unifyLineEnds.eq_3 _ _ fun es hr he => ?_
        cases rest
        case nil => exact hcut ⟨hr, rfl, es, he⟩
        case cons d rest => exact hc rest hr (by simp_all)
      obtain h | ⟨es, hd, h⟩ := ih
      · exact .inl (by rw [List.cons_append, hline, h, List.cons_append])
      · exact .inr ⟨es, hd, by rw [List.cons_append, hline, h, List.cons_append]⟩

theorem unifyLineEnds_append_of_head {ds : List Char} (h : ds.head? ≠ some '\n') :
    unifyLineEnds (cs ++ ds) = unifyLineEnds cs ++ unifyLineEnds ds := by
  refine unifyLineEnds_append.resolve_right ?_
  rintro ⟨es, rfl, -⟩
  exact h rfl

-- What is no line end was there before.
theorem exists_of_unifyLineEnds {ds : List Char} (h : unifyLineEnds cs = c :: ds) (hc : c ≠ '\n') :
    ∃ rest, cs = c :: rest ∧ unifyLineEnds rest = ds := by
  fun_cases unifyLineEnds cs
  case case1 => cases h
  case case2 => exact absurd (List.cons.inj h).1.symm hc
  case case3 d rest hline =>
    rw [unifyLineEnds.eq_3 _ _ hline] at h
    obtain ⟨hd, hrest⟩ := List.cons.inj h
    split at hd
    case isTrue => exact absurd hd.symm hc
    case isFalse => exact ⟨rest, by rw [hd], hrest⟩

theorem prefix_of_unifyLineEnds {ds : List Char} (hn : '\n' ∉ ds) (h : ds <+: unifyLineEnds cs) :
    ds <+: cs := by
  induction ds generalizing cs
  case nil => exact List.nil_prefix
  case cons d ds ih =>
    rw [List.mem_cons, not_or] at hn
    obtain ⟨es, hes⟩ := h
    obtain ⟨rest, rfl, hrest⟩ := exists_of_unifyLineEnds hes.symm (Ne.symm hn.1)
    exact List.cons_prefix_cons.mpr ⟨rfl, ih hn.2 (hrest ▸ List.prefix_append ds es)⟩

theorem infix_of_unifyLineEnds {ds : List Char} (hn : '\n' ∉ ds) (h : ds <:+: unifyLineEnds cs) :
    ds <:+: cs := by
  fun_induction unifyLineEnds cs
  case case1 => exact h
  case case2 rest ih =>
    obtain hp | hi := List.infix_cons_iff.mp h
    case inl =>
      rw [← unifyLineEnds] at hp
      exact (prefix_of_unifyLineEnds hn hp).isInfix
    case inr => exact List.infix_cons (List.infix_cons (ih hi))
  case case3 d rest hline ih =>
    obtain hp | hi := List.infix_cons_iff.mp h
    case inl =>
      rw [← unifyLineEnds.eq_3 _ _ hline] at hp
      exact (prefix_of_unifyLineEnds hn hp).isInfix
    case inr => exact List.infix_cons (ih hi)

/-! ### Escapes -/

theorem isUnified_of_not_isAscii (h : ¬isAscii c) : isUnified [c] := by
  have hr : c ≠ '\r' := by
    rintro rfl
    exact h (by decide)
  have hf : c ≠ '\x0c' := by
    rintro rfl
    exact h (by decide)
  simp [isUnified, hr, hf]

theorem isUnified_nameChar (c : Char) : isUnified (Escaped.nameChar c) := by
  by_cases h : isAscii c
  · exact of_isAscii (p := fun c => isUnified (Escaped.nameChar c)) (by decide) h
  · unfold Escaped.nameChar
    split
    · decide
    · simpa [Escaped.isPlain, h] using isUnified_of_not_isAscii h

theorem isUnified_stringChar (c : Char) : isUnified (Escaped.stringChar c) := by
  by_cases h : isAscii c
  · exact of_isAscii (p := fun c => isUnified (Escaped.stringChar c)) (by decide) h
  · have hc : ¬Escaped.isControl c := by
      simp only [Escaped.isControl, isAscii, Bool.or_eq_true, decide_eq_true_eq, beq_iff_eq] at h ⊢
      omega
    unfold Escaped.stringChar
    split
    · decide
    · split
      · rename_i hq
        simp only [Bool.or_eq_true, decide_eq_true_eq] at hq
        rcases hq with rfl | rfl <;> decide
      · simpa [hc] using isUnified_of_not_isAscii h

theorem isUnified_code (h : isAscii c) : isUnified (Escaped.code c) :=
  of_isAscii (p := fun c => isUnified (Escaped.code c)) (by decide) h

theorem isUnified_nameChars (cs : List Char) : isUnified (Escaped.nameChars cs) :=
  isUnified_flatMap isUnified_nameChar

theorem isUnified_leadingChars (cs : List Char) : isUnified (Escaped.leadingChars cs) := by
  cases cs
  case nil => rfl
  case cons c cs =>
    rw [Escaped.leadingChars, isUnified_append]
    refine ⟨?_, isUnified_nameChars cs⟩
    split
    case isTrue h => exact isUnified_code (isAscii_of_isDigit h)
    case isFalse => exact isUnified_nameChar c

theorem isUnified_identifierChars (cs : List Char) : isUnified (Escaped.identifierChars cs) := by
  have hyphen : '-' ≠ '\r' ∧ '-' ≠ '\x0c' := by decide
  unfold Escaped.identifierChars
  split
  · exact isUnified_cons.mpr ⟨hyphen, isUnified_cons.mpr ⟨hyphen, isUnified_nameChars _⟩⟩
  · decide
  · exact isUnified_cons.mpr ⟨hyphen, isUnified_leadingChars _⟩
  · exact isUnified_leadingChars cs

theorem isUnified_quotedChars (cs : List Char) : isUnified (Escaped.quotedChars cs) := by
  rw [Escaped.quotedChars, isUnified_cons, isUnified_append]
  exact ⟨by decide, isUnified_flatMap isUnified_stringChar, by decide⟩

end Stylesheet.Text
