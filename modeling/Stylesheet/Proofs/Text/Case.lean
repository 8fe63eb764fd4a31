import Stylesheet.Text.Ascii
/-!
Characters by their codes. What holds of ASCII characters is checked one by one; a character beyond
them has no letter case. Main statement: `lower` changes nothing that it has made (`lower_lower`).
-/

namespace Stylesheet

-- What holds of all items of a list is checked item by item, also if the items are characters.
instance (priority := 2000) decidableForallMem {α : Type} {p : α → Prop} [DecidablePred p]
    (xs : List α) : Decidable (∀ x ∈ xs, p x) :=
  List.decidableBAll p xs

namespace Text

theorem of_isAscii {p : Char → Bool} (h : ∀ n < 128, p (Char.ofNat n)) {c : Char}
    (hc : isAscii c) : p c := by
  have := h c.toNat (by simpa [isAscii] using hc)
  rwa [Char.ofNat_toNat] at this

theorem isAscii_of_isDigit {c : Char} (h : c.isDigit) : isAscii c := by
  simp only [Char.isDigit, Bool.and_eq_true, decide_eq_true_eq, ge_iff_le, UInt32.le_iff_toNat_le,
    Char.toNat_val] at h
  have := h.2
  simp only [isAscii, decide_eq_true_eq]
  exact Nat.lt_of_le_of_lt this (by decide)

theorem isUpper_iff {c : Char} : c.isUpper ↔ 65 ≤ c.toNat ∧ c.toNat ≤ 90 := by
  delta Char.isUpper
  simp [UInt32.le_iff_toNat_le, ← Char.toNat_val]

theorem isLower_iff {c : Char} : c.isLower ↔ 97 ≤ c.toNat ∧ c.toNat ≤ 122 := by
  delta Char.isLower
  simp [UInt32.le_iff_toNat_le, ← Char.toNat_val]

theorem isAscii_of_isAlpha {c : Char} (h : c.isAlpha) : isAscii c := by
  delta Char.isAlpha at h
  simp only [Bool.or_eq_true, isUpper_iff, isLower_iff] at h
  simp only [isAscii, decide_eq_true_eq]
  omega

theorem toLower_of_not_isUpper {c : Char} (h : ¬c.isUpper) : c.toLower = c := by
  delta Char.isUpper at h
  simp only [decide_eq_true_eq] at h
  exact dif_neg h

theorem toLower_of_not_isAscii {c : Char} (h : ¬isAscii c) : c.toLower = c := by
  refine toLower_of_not_isUpper fun hu => h ?_
  have := isUpper_iff.mp hu
  simp only [isAscii, decide_eq_true_eq]
  omega

theorem toLower_toLower (c : Char) : c.toLower.toLower = c.toLower := by
  by_cases h : isAscii c
  · exact eq_of_beq (of_isAscii (p := fun c => c.toLower.toLower == c.toLower) (by decide) h)
  · rw [toLower_of_not_isAscii h, toLower_of_not_isAscii h]

theorem lower_lower (s : String) : lower (lower s) = lower s := by
  have h : Char.toLower ∘ Char.toLower = Char.toLower := funext toLower_toLower
  simp [lower, h]

theorem isHexDigit_toLower {c : Char} (h : isHexDigit c) : isHexDigit c.toLower := by
  by_cases ha : isAscii c
  · have := of_isAscii (p := fun c => !isHexDigit c || isHexDigit c.toLower) (by decide) ha
    simpa [h] using this
  · rwa [toLower_of_not_isAscii ha]

end Text
end Stylesheet
