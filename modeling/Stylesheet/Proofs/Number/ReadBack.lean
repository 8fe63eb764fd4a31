import Stylesheet.Number.Basic
import Stylesheet.Proofs.Number.Rounding
import Stylesheet.Proofs.Text.Case
/-!
Numbers as they are written. The decimal of a double is read back as the double: the digits lie in
the interval of what is rounded to it, and the text denotes these digits. Main statements:
`Double.reads_shortest`, `Decimal.toDouble?_of_reads`, `Number.read_css`.
-/

namespace Stylesheet

namespace Double

variable {x : Double} {n step : Nat}

theorem reads_of_onGrid? (h : x.onGrid? step = some n) : x.reads (n * step) := by
  simp only [onGrid?] at h
  split at h
  case h_1 => cases h
  case h_2 hb _ => cases h; exact hb
  case h_3 _ ha => cases h; exact ha
  case h_4 hb ha =>
    simp only [Option.some.injEq] at h
    subst h
    split
    · exact hb
    · exact ha

theorem reads_exact (hx : 0 < x.significand) : x.reads x.exact := by
  have hstep : 0 < 2 ^ x.power * quarterUnit := Nat.mul_pos (Nat.two_pow_pos _) quarterUnit_pos
  have he : x.exact = 4 * x.significand * (2 ^ x.power * quarterUnit) := by
    simp only [exact, units, Nat.pow_eq, Nat.mul_assoc]
  have hg : 0 < x.gap := by
    unfold gap
    split <;> decide
  rw [reads_iff, lowerEnd_eq, upperEnd_eq, he]
  have hl := Nat.mul_lt_mul_of_pos_right (by omega : 4 * x.significand - x.gap < 4 * x.significand)
    hstep
  have hu := Nat.mul_lt_mul_of_pos_right (by omega : 4 * x.significand < 4 * x.significand + 2)
    hstep
  exact ⟨hl.le, hu.le, fun _ => ⟨hl, hu⟩⟩

-- The text of a double denotes a decimal that is rounded to it.
theorem reads_shortest (hx : 0 < x.significand) :
    -1076 ≤ x.shortest.2 ∧ x.reads (x.shortest.1 * 10 ^ (x.shortest.2 + 1076).toNat) := by
  simp only [shortest]
  generalize hf : List.findSome? _ _ = found
  cases found
  case none => simpa using reads_exact hx
  case some found =>
    obtain ⟨count, _, hc⟩ := List.exists_of_findSome?_eq_some hf
    simp only [Option.map_eq_some_iff] at hc
    obtain ⟨digits, hg, he⟩ := hc
    subst he
    refine ⟨by simp, ?_⟩
    simpa using reads_of_onGrid? hg

theorem lowerEnd_ge (hx : 0 < x.significand) : 10 ^ 745 ≤ x.lowerEnd := by
  have hone : (10 : Nat) ^ 745 ≤ 2 * quarterUnit := by decide +kernel
  have hg : x.gap ≤ 2 := by
    unfold gap
    split <;> decide
  calc 10 ^ 745 ≤ 2 * quarterUnit := hone
    _ ≤ (4 * x.significand - x.gap) * (2 ^ x.power * quarterUnit) :=
      Nat.mul_le_mul (by omega) (Nat.le_mul_of_pos_left _ (Nat.two_pow_pos _))
    _ = x.lowerEnd := x.lowerEnd_eq.symm

theorem upperEnd_lt (x : Double) : x.upperEnd < 10 ^ 1386 := by
  have hlt : x.significand < 2 ^ 53 := x.significand_lt
  have hmax : 2 ^ 55 * (2 ^ 2045 * quarterUnit) < 10 ^ 1386 := by decide +kernel
  have hle {p : Nat} (hp : x.power ≤ p) : x.upperEnd ≤ 2 ^ 55 * (2 ^ p * quarterUnit) := by
    rw [upperEnd_eq]
    exact Nat.mul_le_mul (by omega)
      (Nat.mul_le_mul_right _ (Nat.pow_le_pow_right (by decide) hp))
  exact (hle x.power_le).trans_lt hmax

end Double

namespace Decimal

open Double

variable {x : Double} {d : Decimal}

-- The order of a decimal that is rounded to a double.
theorem order_of_reads (hx : 0 < x.significand) (he : -1076 ≤ d.exponent)
    (h : x.reads (d.digits * 10 ^ (d.exponent + 1076).toNat)) :
    d.digits ≠ 0 ∧ -330 ≤ ((Nat.toDigits 10 d.digits).length : Int) + d.exponent ∧
      ((Nat.toDigits 10 d.digits).length : Int) + d.exponent ≤ 310 := by
  rw [reads_iff] at h
  have hl := (lowerEnd_ge hx).trans h.1
  have hu := h.2.1.trans_lt x.upperEnd_lt
  generalize hk : (d.exponent + 1076).toNat = k at hl hu
  have hpos (k : Nat) : 0 < 10 ^ k := Nat.pow_pos (by decide)
  have hlen : 0 < (Nat.toDigits 10 d.digits).length := Nat.length_toDigits_pos
  have hne : d.digits ≠ 0 := by
    intro h0
    rw [h0, Nat.zero_mul] at hl
    exact absurd hl (Nat.not_le_of_gt (hpos 745))
  refine ⟨hne, ?_, ?_⟩
  · have hlt := (Nat.length_toDigits_le_iff (by decide) hlen).mp (Nat.le_refl _)
    have hpow : 10 ^ 745 < 10 ^ ((Nat.toDigits 10 d.digits).length + k) := by
      rw [Nat.pow_add]
      exact hl.trans_lt (Nat.mul_lt_mul_of_pos_right hlt (hpos k))
    have := (Nat.pow_lt_pow_iff_right (by decide)).mp hpow
    omega
  · by_contra hn
    have hpow : 10 ^ ((Nat.toDigits 10 d.digits).length - 1) ≤ d.digits := by
      by_cases h1 : 0 < (Nat.toDigits 10 d.digits).length - 1
      · refine Nat.le_of_not_lt fun h => ?_
        have := (Nat.length_toDigits_le_iff (by decide) h1).mpr h
        omega
      · rw [Nat.eq_zero_of_not_pos h1]
        exact Nat.one_le_iff_ne_zero.mpr hne
    have := (Nat.mul_le_mul_right (10 ^ k) hpow).trans_lt hu
    rw [← Nat.pow_add] at this
    have := (Nat.pow_lt_pow_iff_right (by decide)).mp this
    omega

theorem quarterUnit_eq : 4 * Nat.pow 2 1074 * quarterUnit = 10 ^ 1076 := by
  decide +kernel

-- A decimal in units of the last place that a double may have, as a whole number and as a quotient.
theorem scale_whole {one q k n e : Nat} (h : 4 * one * q = 10 ^ k) :
    4 * (n * Nat.pow 10 e * one) * q = n * 10 ^ (e + k) * 1 := by
  rw [Nat.pow_add, ← h, Nat.pow_eq]
  ring

theorem scale_quotient {one q k n i j : Nat} (h : 4 * one * q = 10 ^ k) (hk : i + j = k) :
    4 * (n * one) * q = n * 10 ^ i * Nat.pow 10 j := by
  rw [Nat.pow_eq, Nat.mul_assoc n, ← Nat.pow_add, hk, ← h]
  ring

theorem toDouble?_of_reads (hx : 0 < x.significand) (he : -1076 ≤ d.exponent)
    (h : x.reads (d.digits * 10 ^ (d.exponent + 1076).toNat)) :
    d.toDouble? = some { x with negative := d.negative } := by
  obtain ⟨hne, hlow, hhigh⟩ := order_of_reads hx he h
  simp only [toDouble?]
  rw [if_neg (by simpa [hne] using hlow), if_neg (Int.not_lt.mpr hhigh)]
  split
  case isTrue hpos =>
    have hk : (d.exponent + 1076).toNat = d.exponent.toNat + 1076 := by omega
    rw [hk] at h
    exact ofRatio?_of_reads (by decide) h (scale_whole quarterUnit_eq)
  case isFalse hneg =>
    have hk : (d.exponent + 1076).toNat + (-d.exponent).toNat = 1076 := by omega
    have hpos (j : Nat) : 0 < Nat.pow 10 j := Nat.pow_pos (by decide)
    exact ofRatio?_of_reads (hpos _) h (scale_quotient quarterUnit_eq hk)

theorem toDouble?_of_digits_eq_zero (h : d.digits = 0) :
    d.toDouble? = some (.zero d.negative) := by
  simp only [toDouble?]
  rw [if_pos (by simp [h])]

-- The parts of a decimal without exponent.
def signed (negative : Bool) : List Char :=
  if negative then ['-'] else []

theorem cons_eq_signed (negative : Bool) (cs : List Char) :
    (if negative then '-' :: cs else cs) = signed negative ++ cs := by
  cases negative <;> rfl

def pointed (fraction : List Char) : List Char :=
  if fraction.isEmpty then [] else '.' :: fraction

structure IsWritten (negative : Bool) (whole fraction : List Char) (cs : List Char) : Prop where
  eq : cs = signed negative ++ (whole ++ pointed fraction)
  ne_nil : whole ≠ []
  whole_isDigit : ∀ c ∈ whole, c.isDigit
  fraction_isDigit : ∀ c ∈ fraction, c.isDigit

theorem pointed_ne_digit (fraction : List Char) : ∀ c ∈ (pointed fraction).head?, ¬c.isDigit := by
  unfold pointed
  split <;> simp

theorem takeWhile_isDigit {cs rest : List Char} (h : ∀ c ∈ cs, c.isDigit)
    (hr : ∀ c ∈ rest.head?, ¬c.isDigit) : (cs ++ rest).takeWhile Char.isDigit = cs ∧
      (cs ++ rest).dropWhile Char.isDigit = rest := by
  rw [List.takeWhile_append_of_pos h, List.dropWhile_append_of_pos h]
  cases rest <;> simp_all

theorem splitSign_signed (negative : Bool) {c : Char} (cs : List Char) (h : c.isDigit) :
    splitSign (signed negative ++ c :: cs) = (negative, c :: cs) := by
  cases negative
  case true => rfl
  case false =>
    rw [signed, if_neg (by decide), List.nil_append, splitSign]
    · rintro rest he
      cases he
      cases h
    · rintro rest he
      cases he
      cases h

theorem ofChars?_of_isWritten {negative : Bool} {whole fraction cs : List Char}
    (h : IsWritten negative whole fraction cs) :
    ofChars? cs = some ⟨negative, digitsValue (whole ++ fraction), -fraction.length⟩ := by
  obtain ⟨rfl, hn, hw, hf⟩ := h
  obtain ⟨c, whole, hc⟩ := List.exists_cons_of_ne_nil hn
  obtain ⟨htake, hdrop⟩ := takeWhile_isDigit hw (pointed_ne_digit fraction)
  have hsign := splitSign_signed negative (whole ++ pointed fraction)
    (hw c (by simp [hc]))
  subst hc
  simp only [ofChars?]
  rw [List.cons_append, hsign]
  dsimp only
  rw [← List.cons_append, htake, hdrop]
  cases fraction
  case nil => simp [pointed, exponent?]
  case cons d fraction =>
    obtain ⟨htake, hdrop⟩ := @takeWhile_isDigit _ [] hf (by simp)
    simp only [List.append_nil] at htake hdrop
    simp [pointed, htake, hdrop, exponent?]

theorem digitsValue_append (cs ds : List Char) :
    digitsValue (cs ++ ds) = 10 ^ ds.length * digitsValue cs + digitsValue ds := by
  simp only [digitsValue, Nat.ofDigitChars_append]
  exact Nat.ofDigitChars_eq_ofDigitChars_zero

end Decimal

namespace Double

open Decimal

theorem isWritten_positional (negative : Bool) (n : Nat) (p : Int) :
    ∃ whole fraction,
      IsWritten negative whole fraction (signed negative ++ positional n p) ∧
      digitsValue (whole ++ fraction) = n * 10 ^ p.toNat ∧ fraction.length = (-p).toNat := by
  have hdigit : ∀ c ∈ Nat.toDigits 10 n, c.isDigit :=
    fun c hc => Nat.isDigit_of_mem_toDigits (by decide) (by decide) hc
  have hvalue : digitsValue (Nat.toDigits 10 n) = n := Nat.ofDigitChars_ten_toDigits
  have hne : Nat.toDigits 10 n ≠ [] := Nat.toDigits_ne_nil
  have hzero (k : Nat) : ∀ c ∈ List.replicate k '0', c.isDigit := by
    intro c hc
    rw [List.eq_of_mem_replicate hc]
    decide
  simp only [positional]
  generalize Nat.toDigits 10 n = text at *
  split
  case isTrue hp =>
    refine ⟨text ++ List.replicate p.toNat '0', [], ⟨by simp [pointed], by simp [hne], ?_, by simp⟩,
      ?_, ?_⟩
    · exact List.forall_mem_append.mpr ⟨hdigit, hzero _⟩
    · rw [List.append_nil, digitsValue_append, hvalue, List.length_replicate, Nat.mul_comm]
      simp [digitsValue]
    · rw [List.length_nil]
      omega
  case isFalse hp =>
    have hp0 : p.toNat = 0 := by omega
    split
    case isTrue hlt =>
      have hfront : text.take (text.length - (-p).toNat) ≠ [] := by
        simp only [ne_eq, List.take_eq_nil_iff, hne, or_false]
        omega
      have hback : (text.drop (text.length - (-p).toNat)).isEmpty = false := by
        rw [List.isEmpty_eq_false_iff, ne_eq, List.drop_eq_nil_iff]
        omega
      refine ⟨_, _, ⟨by rw [pointed, hback]; rfl, hfront, ?_, ?_⟩, ?_, ?_⟩
      · exact fun c hc => hdigit c (List.mem_of_mem_take hc)
      · exact fun c hc => hdigit c (List.mem_of_mem_drop hc)
      · rw [List.take_append_drop, hvalue, hp0, Nat.pow_zero, Nat.mul_one]
      · rw [List.length_drop]
        omega
    case isFalse hge =>
      refine ⟨['0'], List.replicate ((-p).toNat - text.length) '0' ++ text,
        ⟨by simp [pointed, hne], by simp, by simp, ?_⟩, ?_, ?_⟩
      · exact List.forall_mem_append.mpr ⟨hzero _, hdigit⟩
      · rw [digitsValue_append, digitsValue_append, hvalue, hp0]
        simp [digitsValue, Nat.ofDigitChars_cons]
      · rw [List.length_append, List.length_replicate]
        omega

-- What a double is read back as: zero loses its sign.
def asRead (x : Double) : Double :=
  if x.isZero then zero false else x

theorem same_asRead (x : Double) : x.same x.asRead := by
  unfold asRead
  split
  case isTrue h =>
    have hz : (zero false).isZero := rfl
    simp [same, h, hz]
  case isFalse => simp [same]

end Double

namespace Number

open Decimal

-- The text of a number is a numeral of the number.
theorem read_css (x : Double) : ∃ negative whole fraction d,
    IsWritten negative whole fraction (finite x).css.toList ∧
    Decimal.ofChars? (finite x).css.toList = some d ∧ d.toDouble? = some x.asRead := by
  by_cases hz : x.isZero
  case pos =>
    have hw : IsWritten false ['0'] [] ['0'] := ⟨by decide, by decide, by decide, by decide⟩
    have htext : (finite x).css.toList = ['0'] := by
      rw [css, Number.isZero, if_pos hz]
      rfl
    have hread : x.asRead = .zero false := if_pos hz
    have hzero : digitsValue ['0'] = 0 := by decide
    have hd := ofChars?_of_isWritten hw
    rw [List.append_nil, hzero] at hd
    rw [htext, hread]
    exact ⟨false, ['0'], [], _, hw, hd, toDouble?_of_digits_eq_zero rfl⟩
  case neg =>
    have hx : 0 < x.significand := by
      simp only [Double.isZero, beq_iff_eq] at hz
      exact Nat.pos_of_ne_zero hz
    obtain ⟨hp, hr⟩ := Double.reads_shortest hx
    have htext : (finite x).css.toList =
        signed x.negative ++ Double.positional x.shortest.1 x.shortest.2 := by
      rw [css, Number.isZero, if_neg hz, text, Double.toDecimal, if_neg hz, String.toList_ofList]
      exact cons_eq_signed ..
    obtain ⟨whole, fraction, hw, hv, hl⟩ :=
      Double.isWritten_positional x.negative x.shortest.1 x.shortest.2
    rw [← htext] at hw
    have hread : x.asRead = x := if_neg hz
    have he : (-(fraction.length : Int) + 1076).toNat + x.shortest.2.toNat =
        (x.shortest.2 + 1076).toNat := by
      omega
    rw [← he, Nat.pow_add, Nat.mul_left_comm, Nat.mul_comm, ← hv] at hr
    have hlow : -1076 ≤ -(fraction.length : Int) := by omega
    rw [hread]
    exact ⟨_, _, _, _, hw, ofChars?_of_isWritten hw, toDouble?_of_reads hx hlow hr⟩

end Number
end Stylesheet
