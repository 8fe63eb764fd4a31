import Stylesheet.Number.Shortest
import Mathlib.Tactic.Ring
import Mathlib.Tactic.Linarith
/-!
Rounding to doubles. A quotient in the interval that a double is said to be read from is rounded to
this double. Main statement: `Double.ofRatio?_of_reads`.
-/

namespace Stylesheet.Double

variable {x : Double} {a d m n : Nat}

theorem roundEven_eq (hd : 0 < d) (hl : 2 * (m * d) ≤ 2 * a + d) (hu : 2 * a ≤ 2 * (m * d) + d)
    (ht : m % 2 = 1 → 2 * (m * d) < 2 * a + d ∧ 2 * a < 2 * (m * d) + d) : roundEven a d = m := by
  have hq := Nat.div_add_mod a d
  have hr := Nat.mod_lt a hd
  simp only [roundEven]
  generalize a / d = q at *
  generalize a % d = r at *
  rw [Nat.mul_comm] at hq
  -- The quotient without its fraction is the result or the number before it.
  have hcases : m = q ∨ m = q + 1 := by
    by_contra hn
    rcases (by omega : m + 1 ≤ q ∨ q + 2 ≤ m) with h | h
    · have := Nat.mul_le_mul_right d h
      rw [Nat.add_mul] at this
      omega
    · have := Nat.mul_le_mul_right d h
      rw [Nat.add_mul] at this
      omega
  rcases hcases with rfl | rfl
  · split
    · rfl
    · split
      · omega
      · split <;> omega
  · rw [Nat.add_mul, Nat.one_mul] at *
    split
    · omega
    · split
      · rfl
      · split <;> omega

-- A quotient between two powers of two.
theorem powerOf_eq {p : Nat} (hd : 0 < d) (hl : p = 0 ∨ 2 ^ 52 * (d * 2 ^ p) ≤ a)
    (hu : a < 2 ^ 53 * (d * 2 ^ p)) : powerOf a d = p := by
  have hlt : a / d < 2 ^ (53 + p) := by
    rw [Nat.div_lt_iff_lt_mul hd, Nat.pow_add]
    calc a < 2 ^ 53 * (d * 2 ^ p) := hu
      _ = 2 ^ 53 * 2 ^ p * d := by ring
  have hlog : (a / d).log2 < 53 + p := by
    by_cases h0 : a / d = 0
    · simp [h0]
    · exact (Nat.log2_lt h0).mpr hlt
  rcases hl with rfl | hl
  · simp only [powerOf]
    omega
  · have hle : 2 ^ (52 + p) ≤ a / d := by
      rw [Nat.le_div_iff_mul_le hd, Nat.pow_add]
      calc 2 ^ 52 * 2 ^ p * d = 2 ^ 52 * (d * 2 ^ p) := by ring
        _ ≤ a := hl
    have h0 : a / d ≠ 0 := by
      have := Nat.two_pow_pos (52 + p)
      omega
    have := (Nat.le_log2 h0).mpr hle
    simp only [powerOf]
    omega

-- How far below a double the numbers end that are rounded to it, in quarters of its last place.
def gap (x : Double) : Nat :=
  if x.significand = Nat.pow 2 52 && 0 < x.power then 1 else 2

theorem lowerEnd_eq (x : Double) :
    x.lowerEnd = (4 * x.significand - x.gap) * (2 ^ x.power * quarterUnit) := by
  simp only [lowerEnd, exact, units, gap, Nat.sub_mul, Nat.pow_eq]
  generalize quarterUnit = q
  congr 1
  · ring
  · rw [Nat.mul_assoc]

theorem upperEnd_eq (x : Double) :
    x.upperEnd = (4 * x.significand + 2) * (2 ^ x.power * quarterUnit) := by
  simp only [upperEnd, exact, units, Nat.pow_eq]
  generalize quarterUnit = q
  ring

theorem quarterUnit_pos : 0 < quarterUnit := by
  rw [quarterUnit, Nat.pow_eq]
  exact Nat.pow_pos (by decide)

theorem reads_iff : x.reads n ↔ x.lowerEnd ≤ n ∧ n ≤ x.upperEnd ∧
    (x.significand % 2 = 1 → x.lowerEnd < n ∧ n < x.upperEnd) := by
  unfold reads
  split
  case isTrue h => simp [h]
  case isFalse h =>
    have : x.significand % 2 = 1 := by omega
    simp only [Bool.and_eq_true, decide_eq_true_eq, this, forall_const]
    omega

-- Where a quotient lies that a double is read from.
theorem bounds_of_reads (hd : 0 < d) (h : x.reads n) (he : 4 * a * quarterUnit = n * d) :
    (4 * x.significand - x.gap) * (d * 2 ^ x.power) ≤ 4 * a ∧
      4 * a ≤ (4 * x.significand + 2) * (d * 2 ^ x.power) ∧
      (x.significand % 2 = 1 → (4 * x.significand - x.gap) * (d * 2 ^ x.power) < 4 * a ∧
        4 * a < (4 * x.significand + 2) * (d * 2 ^ x.power)) := by
  have hq := quarterUnit_pos
  have scale (k : Nat) : k * (d * 2 ^ x.power) * quarterUnit =
      k * (2 ^ x.power * quarterUnit) * d := by
    ring
  rw [reads_iff, lowerEnd_eq, upperEnd_eq] at h
  refine ⟨?_, ?_, fun hm => ⟨?_, ?_⟩⟩
  · refine Nat.le_of_mul_le_mul_right ?_ hq
    rw [scale, he]
    exact Nat.mul_le_mul_right d h.1
  · refine Nat.le_of_mul_le_mul_right ?_ hq
    rw [scale, he]
    exact Nat.mul_le_mul_right d h.2.1
  · refine Nat.lt_of_mul_lt_mul_right (a := quarterUnit) ?_
    rw [scale, he]
    exact Nat.mul_lt_mul_of_pos_right (h.2.2 hm).1 hd
  · refine Nat.lt_of_mul_lt_mul_right (a := quarterUnit) ?_
    rw [scale, he]
    exact Nat.mul_lt_mul_of_pos_right (h.2.2 hm).2 hd

theorem ofFields?_eq (x : Double) (negative : Bool) :
    ofFields? negative x.significand x.power = some { x with negative } := by
  unfold ofFields?
  rw [dif_pos ⟨x.significand_lt, x.normal, x.power_le⟩]

-- A quotient below the least significand of its double's power has the lesser power, and is
-- rounded up to the power of two.
theorem rounded_below {q g : Nat} (hd : 0 < d) (hnormal : 2 ^ 52 ≤ m)
    (hg : g = if m = 2 ^ 52 then 1 else 2) (hl : (4 * m - g) * (d * 2 ^ (q + 1)) ≤ 4 * a)
    (ha : a < 2 ^ 52 * (d * 2 ^ (q + 1))) :
    m = 2 ^ 52 ∧ powerOf a d = q ∧ roundEven a (d * 2 ^ q) = 2 ^ 53 := by
  have hD : 0 < d * 2 ^ q := Nat.mul_pos hd (Nat.two_pow_pos q)
  have hhalf : d * 2 ^ (q + 1) = 2 * (d * 2 ^ q) := by
    rw [Nat.pow_succ]
    ring
  rw [hhalf] at hl ha
  generalize hD' : d * 2 ^ q = D at *
  have hm : m = 2 ^ 52 := by
    by_contra hne
    rw [if_neg hne] at hg
    have := Nat.mul_le_mul_right (2 * D) (by omega : 2 ^ 54 ≤ 4 * m - g)
    omega
  rw [if_pos hm] at hg
  subst hm hg
  have hl : (2 ^ 54 - 1) * (2 * D) ≤ 4 * a := hl
  refine ⟨rfl, powerOf_eq hd (.inr ?_) ?_, roundEven_eq (by omega) (by omega) (by omega) ?_⟩
  · rw [hD']
    omega
  · rw [hD']
    omega
  · intro
    omega

theorem rounded_within {p g : Nat} (hd : 0 < d) (hlt : m < 2 ^ 53)
    (hg : g = if m = 2 ^ 52 ∧ 0 < p then 1 else 2) (hp : p = 0 ∨ 2 ^ 52 * (d * 2 ^ p) ≤ a)
    (hl : (4 * m - g) * (d * 2 ^ p) ≤ 4 * a) (hu : 4 * a ≤ (4 * m + 2) * (d * 2 ^ p))
    (ht : m % 2 = 1 →
      (4 * m - g) * (d * 2 ^ p) < 4 * a ∧ 4 * a < (4 * m + 2) * (d * 2 ^ p)) :
    powerOf a d = p ∧ roundEven a (d * 2 ^ p) = m := by
  have hD : 0 < d * 2 ^ p := Nat.mul_pos hd (Nat.two_pow_pos p)
  generalize hD' : d * 2 ^ p = D at *
  have hu' : 2 * a ≤ 2 * (m * D) + D := by
    rw [Nat.add_mul, Nat.mul_assoc] at hu
    omega
  have hl' : 2 * (m * D) ≤ 2 * a + D := by
    rw [Nat.sub_mul, Nat.mul_assoc] at hl
    split at hg
    case isTrue h =>
      rw [h.1]
      omega
    case isFalse =>
      subst hg
      omega
  refine ⟨powerOf_eq hd (hD' ▸ hp) ?_, roundEven_eq hD hl' hu' fun hodd => ?_⟩
  · have := Nat.mul_le_mul_right D (by omega : m + 1 ≤ 2 ^ 53)
    rw [Nat.add_mul] at this
    rw [hD']
    omega
  · obtain ⟨hl, hu⟩ := ht hodd
    have hne : ¬(m = 2 ^ 52 ∧ 0 < p) := by
      rintro ⟨rfl, _⟩
      exact absurd hodd (by decide)
    rw [if_neg hne] at hg
    subst hg
    rw [Nat.sub_mul, Nat.mul_assoc] at hl
    rw [Nat.add_mul, Nat.mul_assoc] at hu
    omega

-- The power and the significand of a rounded quotient `a / d`.
theorem rounded {p g : Nat} (hd : 0 < d) (hlt : m < 2 ^ 53) (hnormal : 2 ^ 52 ≤ m ∨ p = 0)
    (hg : g = if m = 2 ^ 52 ∧ 0 < p then 1 else 2)
    (hl : (4 * m - g) * (d * 2 ^ p) ≤ 4 * a) (hu : 4 * a ≤ (4 * m + 2) * (d * 2 ^ p))
    (ht : m % 2 = 1 →
      (4 * m - g) * (d * 2 ^ p) < 4 * a ∧ 4 * a < (4 * m + 2) * (d * 2 ^ p)) :
    (powerOf a d = p ∧ roundEven a (d * 2 ^ p) = m) ∨
      ∃ q, p = q + 1 ∧ m = 2 ^ 52 ∧ powerOf a d = q ∧ roundEven a (d * 2 ^ q) = 2 ^ 53 := by
  by_cases hdown : 0 < p ∧ a < 2 ^ 52 * (d * 2 ^ p)
  case pos =>
    obtain ⟨hp, ha⟩ := hdown
    obtain ⟨q, rfl⟩ := Nat.exists_eq_succ_of_ne_zero hp.ne'
    have hm : 2 ^ 52 ≤ m := by omega
    exact .inr ⟨q, rfl, rounded_below hd hm (by simpa using hg) hl ha⟩
  case neg =>
    exact .inl (rounded_within hd hlt hg (by omega) hl hu ht)

theorem ofRatio?_of_reads {negative : Bool} (hd : 0 < d) (h : x.reads n)
    (he : 4 * a * quarterUnit = n * d) : ofRatio? negative a d = some { x with negative } := by
  obtain ⟨hl, hu, ht⟩ := bounds_of_reads hd h he
  have hfields := ofFields?_eq x negative
  have hg : x.gap = if x.significand = 2 ^ 52 ∧ 0 < x.power then 1 else 2 := by
    simp [gap, Bool.and_eq_true]
  have hr := rounded hd x.significand_lt x.normal hg hl hu ht
  simp only [ofRatio?, Nat.pow_eq]
  rcases hr with ⟨hp, hm⟩ | ⟨q, hq, hm, hp, hr⟩
  · rw [hp, hm, if_neg (Nat.ne_of_lt x.significand_lt), hfields]
  · rw [hp, hr, if_pos rfl, ← hm, ← hq, hfields]

end Stylesheet.Double
