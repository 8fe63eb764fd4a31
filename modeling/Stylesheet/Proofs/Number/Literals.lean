import Stylesheet.Proofs.Number.ReadBack
/-!
The texts of decimal literals: an optional sign, digits with at most one point in front of or among
them, and an optional exponent that has digits itself. Each is read as a decimal. Main statement:
`Decimal.ofChars?_of_isLiteral`.
-/

namespace Stylesheet.Decimal

variable {c : Char} {cs rest : List Char}

def IsDigits (cs : List Char) : Prop :=
  cs ≠ [] ∧ ∀ c ∈ cs, c.isDigit

def IsSign (cs : List Char) : Prop :=
  cs = [] ∨ cs = ['+'] ∨ cs = ['-']

inductive IsFraction : List Char → Prop
  | none : IsFraction []
  | point {digits : List Char} (h : IsDigits digits) : IsFraction ('.' :: digits)

inductive IsExponent : List Char → Prop
  | none : IsExponent []
  | letter {e : Char} {sign digits : List Char} (he : e = 'e' ∨ e = 'E') (hs : IsSign sign)
      (hd : IsDigits digits) : IsExponent (e :: (sign ++ digits))

-- A fraction has a digit behind its point, so that a literal has one in any case.
inductive IsLiteral : List Char → Prop
  | mk {sign whole fraction exponent : List Char} (hs : IsSign sign) (hw : ∀ c ∈ whole, c.isDigit)
      (hf : IsFraction fraction) (hn : whole ≠ [] ∨ fraction ≠ []) (he : IsExponent exponent) :
      IsLiteral (sign ++ whole ++ fraction ++ exponent)

theorem not_sign_of_isDigit (h : c.isDigit) : c ≠ '+' ∧ c ≠ '-' := by
  constructor <;> (rintro rfl; cases h)

theorem splitSign_of_isSign {sign : List Char} (hs : IsSign sign)
    (hc : ∀ c ∈ cs.head?, c ≠ '+' ∧ c ≠ '-') :
    ∃ negative, splitSign (sign ++ cs) = (negative, cs) := by
  obtain rfl | rfl | rfl := hs
  case inl =>
    refine ⟨false, ?_⟩
    rw [List.nil_append, splitSign]
    · rintro rest rfl
      exact (hc _ rfl).2 rfl
    · rintro rest rfl
      exact (hc _ rfl).1 rfl
  case inr.inl => exact ⟨false, rfl⟩
  case inr.inr => exact ⟨true, rfl⟩

theorem exponent?_of_isExponent (h : IsExponent cs) : ∃ exponent, exponent? cs = some exponent := by
  cases h
  case none => exact ⟨0, rfl⟩
  case letter e sign digits he hs hd =>
    have hhead : ∀ c ∈ digits.head?, c ≠ '+' ∧ c ≠ '-' :=
      fun c hc => not_sign_of_isDigit (hd.2 c (List.mem_of_mem_head? hc))
    obtain ⟨negative, hsign⟩ := splitSign_of_isSign hs hhead
    have hempty : digits.isEmpty = false := List.isEmpty_eq_false_iff.mpr hd.1
    have hdigits : digits.all Char.isDigit := List.all_eq_true.mpr hd.2
    simp only [exponent?, hsign, hempty, hdigits]
    rw [if_pos (by simpa using he)]
    exact ⟨_, rfl⟩

-- What stands behind the digits of a literal.
theorem IsExponent.head (h : IsExponent cs) : ∀ c ∈ cs.head?, c = 'e' ∨ c = 'E' := by
  cases h
  case none => simp
  case letter he _ _ => simpa using he

theorem IsFraction.head (hf : IsFraction cs) (he : IsExponent rest) :
    ∀ c ∈ (cs ++ rest).head?, c = '.' ∨ c = 'e' ∨ c = 'E' := by
  cases hf
  case none => exact fun c hc => .inr (he.head c hc)
  case point => simp

theorem not_isDigit_of_head (h : ∀ c ∈ cs.head?, c = '.' ∨ c = 'e' ∨ c = 'E') :
    ∀ c ∈ cs.head?, ¬c.isDigit := by
  intro c hc
  obtain rfl | rfl | rfl := h c hc <;> decide

-- Every literal is read as a decimal.
theorem ofChars?_of_isLiteral (h : IsLiteral cs) : ∃ d, ofChars? cs = some d := by
  obtain @⟨sign, whole, fraction, exponent, hs, hw, hf, hn, he⟩ := h
  have hbehind := hf.head he
  have hhead : ∀ c ∈ (whole ++ (fraction ++ exponent)).head?, c ≠ '+' ∧ c ≠ '-' := by
    cases whole
    case nil =>
      intro c hc
      obtain rfl | rfl | rfl := hbehind c hc <;> decide
    case cons d whole =>
      rintro c ⟨⟩
      exact not_sign_of_isDigit (hw d List.mem_cons_self)
  obtain ⟨negative, hsign⟩ := splitSign_of_isSign hs hhead
  obtain ⟨htake, hdrop⟩ := takeWhile_isDigit hw (not_isDigit_of_head hbehind)
  obtain ⟨value, hexponent⟩ := exponent?_of_isExponent he
  simp only [ofChars?, List.append_assoc, hsign, htake, hdrop]
  cases hf
  case none =>
    have hwhole : whole.isEmpty = false := by simpa using hn
    rw [List.nil_append]
    split
    case h_1 rest => exact absurd (he.head '.' rfl) (by decide)
    case h_2 => simp [hwhole, hexponent]
  case point digits hd =>
    obtain ⟨htake, hdrop⟩ := takeWhile_isDigit hd.2
      (not_isDigit_of_head fun c hc => .inr (he.head c hc))
    have hdigits : digits.isEmpty = false := List.isEmpty_eq_false_iff.mpr hd.1
    simp [htake, hdrop, hdigits, hexponent]

end Stylesheet.Decimal
