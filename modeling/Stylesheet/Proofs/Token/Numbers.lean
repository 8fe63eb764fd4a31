import Stylesheet.Proofs.Number.ReadBack
import Stylesheet.Proofs.Token.Pieces
import Stylesheet.Value.Basic
/-!
The texts of sizes. A numeral ends in front of a unit, unless the unit goes on like an exponent.
Main statement: `Lexing.lexes_size`.
-/

namespace Stylesheet.Lexing

open Text Decimal

variable {c : Char} {cs rest tail : List Char}

-- Whether a unit is read back behind a number. An escape would be needed to write any other name,
-- but units are written without.
def isUnit : Option String → Bool
  | none => true
  | some unit => unit == "%" || (unit.toList.all (isNameChar true) &&
      startsIdentifier true unit.toList && (exponentSpan unit.toList).1.isEmpty &&
      Text.lower unit == unit)

structure EndsNumeral (tail : List Char) : Prop where
  head : ∀ c ∈ tail.head?, ¬c.isDigit ∧ c ≠ '.'
  exponent : exponentSpan tail = ([], tail)

theorem signSpan_signed (negative : Bool) (cs : List Char) (h : c.isDigit) :
    signSpan (signed negative ++ c :: cs) = (signed negative, c :: cs) := by
  cases negative
  case true => rfl
  case false =>
    have : (c = '+' || c = '-') = false := by
      simp only [Bool.or_eq_false_iff, decide_eq_false_iff_not]
      constructor <;> (rintro rfl; cases h)
    rw [signed, if_neg (by decide), List.nil_append, signSpan, if_neg (by simp [this])]

theorem fractionSpan_pointed {fraction : List Char} (hf : ∀ c ∈ fraction, c.isDigit)
    (ht : EndsNumeral tail) :
    fractionSpan (pointed fraction ++ tail) = (pointed fraction, tail) := by
  cases fraction
  case nil =>
    unfold fractionSpan
    split
    · rename_i he
      exact absurd rfl (ht.head '.' (by simp [show tail = _ from he])).2
    · rfl
  case cons d fraction =>
    obtain ⟨htake, hdrop⟩ := takeWhile_isDigit hf fun c hc => (ht.head c hc).1
    have hd : startsDigit (d :: (fraction ++ tail)) := hf d List.mem_cons_self
    rw [List.cons_append] at htake hdrop
    simp [pointed, fractionSpan, hd, digitSpan, htake, hdrop, extend]

theorem numeral_of_isWritten {negative : Bool} {whole fraction : List Char}
    (h : IsWritten negative whole fraction cs) (ht : EndsNumeral tail) :
    numeral (cs ++ tail) = (cs, tail) := by
  obtain ⟨rfl, hn, hw, hf⟩ := h
  obtain ⟨c, whole, hc⟩ := List.exists_cons_of_ne_nil hn
  have hhead : ∀ c ∈ (pointed fraction ++ tail).head?, ¬c.isDigit := by
    cases fraction
    case nil => exact fun c hc => (ht.head c hc).1
    case cons => simp [pointed]
  obtain ⟨htake, hdrop⟩ := takeWhile_isDigit hw hhead
  have hsign := signSpan_signed negative (whole ++ (pointed fraction ++ tail))
    (hw c (by simp [hc]))
  subst hc
  have hdigits : digitSpan (c :: (whole ++ (pointed fraction ++ tail))) =
      (c :: whole, pointed fraction ++ tail) := by
    rw [digitSpan, ← List.cons_append, htake, hdrop]
  simp only [numeral, List.append_assoc, List.cons_append, hsign, hdigits,
    fractionSpan_pointed hf ht, ht.exponent, List.append_nil]

theorem Stops.endsNumeral (h : Stops rest) : EndsNumeral rest := by
  cases rest
  case nil => exact ⟨by simp, rfl⟩
  case cons c rest =>
    have hc := h c rfl
    obtain ⟨hd, hp, he, hE⟩ := (by decide : ∀ c ∈ stops, c.isDigit = false ∧ c ≠ '.' ∧ c ≠ 'e' ∧
      c ≠ 'E') c hc
    refine ⟨?_, ?_⟩
    · simp [hd, hp]
    · simp [exponentSpan, he, hE]

theorem startsIdentifier_append (rest : List Char) (h : startsIdentifier true cs) :
    startsIdentifier true (cs ++ rest) := by
  have hesc {cs : List Char} (h : startsEscape cs) : startsEscape (cs ++ rest) := by
    unfold startsEscape at h
    split at h
    · exact h
    · cases h
  unfold startsIdentifier at h
  split at h
  case h_1 => rfl
  case h_2 c cs hc =>
    rw [List.cons_append, List.cons_append, startsIdentifier]
    · rw [Bool.or_eq_true] at h ⊢
      exact h.imp_right hesc
    · exact hc
  case h_3 c cs hn₁ hn₂ =>
    by_cases hm : c = '-'
    · subst hm
      cases cs
      case nil => cases h
      case cons d cs => exact absurd rfl (hn₂ d cs rfl)
    · rw [List.cons_append, startsIdentifier_cons hm]
      rw [Bool.or_eq_true] at h ⊢
      exact h.imp_right hesc
  case h_4 => cases h

theorem startsDigit_append (hr : Stops rest) : startsDigit (cs ++ rest) = startsDigit cs := by
  cases cs
  case nil =>
    cases rest
    case nil => rfl
    case cons c rest => exact (by decide : ∀ c ∈ stops, c.isDigit = false) c (hr c rfl)
  case cons => rfl

-- Whether a name goes on like an exponent does not depend on what ends it.
theorem exponentSpan_append_stop (h : (exponentSpan cs).1.isEmpty) (hn : cs ≠ []) (hr : Stops rest) :
    exponentSpan (cs ++ rest) = ([], cs ++ rest) := by
  cases cs
  case nil => contradiction
  case cons e cs =>
    have hs : (signSpan (cs ++ rest)).2 = (signSpan cs).2 ++ rest := by
      cases cs
      case nil =>
        cases rest
        case nil => rfl
        case cons c rest =>
          obtain ⟨hp, hm⟩ := (by decide : ∀ c ∈ stops, c ≠ '+' ∧ c ≠ '-') c (hr c rfl)
          simp [signSpan, hp, hm]
      case cons c cs =>
        simp only [signSpan, List.cons_append]
        split <;> rfl
    simp only [exponentSpan] at h
    simp only [List.cons_append, exponentSpan, hs, startsDigit_append hr]
    split
    case isTrue hc =>
      rw [if_pos hc] at h
      cases h
    case isFalse => rfl

theorem ne_nil_of_startsIdentifier (h : startsIdentifier true cs) :
    ∃ c ds, cs = c :: ds ∧ c.isDigit = false ∧ c ≠ '.' ∧ c ≠ '%' := by
  cases cs
  case nil => cases h
  case cons c cs =>
    have hstart := isNameStart_or_of_startsIdentifier h
    obtain ⟨_, _, _, _, hp, hd⟩ := of_isNameStart hstart
    refine ⟨c, cs, rfl, hd, hp, ?_⟩
    rintro rfl
    exact absurd hstart (by decide)

-- A name is the unit that is written as it.
theorem unit_of_isNameChar {s : String} (hname : ∀ c ∈ s.toList, isNameChar true c)
    (hi : startsIdentifier true s.toList) (hl : Text.lower s = s) (hr : EndsName rest) :
    unit true (s.toList ++ rest) = (.ok (some s), s.toList, rest) := by
  have hi' := startsIdentifier_append rest hi
  have hspan := nameSpan_of_isNameChar hname hr
  obtain ⟨c, cs, hc, -, -, hp⟩ := ne_nil_of_startsIdentifier hi
  unfold unit
  split
  case h_1 he =>
    rw [hc, List.cons_append] at he
    exact absurd (List.cons.inj he).1 hp
  case h_2 => simp [hi', hspan, unescape_of_isNameChar hname, Except.map, hl]

theorem unit_of_isUnit {u : Option String} (h : isUnit u) (hr : Stops rest) :
    EndsNumeral ((u.getD "").toList ++ rest) ∧
      unit true ((u.getD "").toList ++ rest) = (.ok u, (u.getD "").toList, rest) := by
  cases u
  case none =>
    refine ⟨hr.endsNumeral, ?_⟩
    rw [Option.getD_none, String.toList_empty, List.nil_append]
    have hi : startsIdentifier true rest = false := by
      cases rest
      case nil => rfl
      case cons c rest =>
        obtain ⟨hm, hs, hb⟩ := (by decide : ∀ c ∈ stops, c ≠ '-' ∧ isNameStart true c = false ∧
          c ≠ '\\') c (hr c rfl)
        simp [startsIdentifier_cons hm, hs, startsEscape_cons hb]
    unfold unit
    split
    case h_1 =>
      exact absurd (hr '%' rfl) (by decide)
    case h_2 => simp [hi]
  case some u =>
    simp only [isUnit, Bool.or_eq_true, beq_iff_eq, Bool.and_eq_true, List.all_eq_true] at h
    simp only [Option.getD_some]
    rcases h with rfl | ⟨⟨⟨hname, hi⟩, he⟩, hl⟩
    · refine ⟨⟨?_, ?_⟩, rfl⟩
      · simp
      · simp [exponentSpan]
    · obtain ⟨c, cs, hc, hd, hp, -⟩ := ne_nil_of_startsIdentifier hi
      have hn : u.toList ≠ [] := by simp [hc]
      refine ⟨⟨?_, exponentSpan_append_stop he hn hr⟩, unit_of_isNameChar hname hi hl hr.endsName⟩
      simp [hc, hd, hp]

-- A size is a number and its unit, whatever ends it.
theorem lexes_size {x : Double} {unit : Option String} (h : isUnit unit) (hr : Stops rest) :
    startsGap ((Size.mk (.finite x) unit).css.toList ++ rest) = false ∧
    Lexes ((Size.mk (.finite x) unit).css.toList ++ rest)
      [.number x.asRead unit (Number.finite x).css] rest := by
  obtain ⟨negative, whole, fraction, d, hw, hd, hx⟩ := Number.read_css x
  obtain ⟨hend, hunit⟩ := unit_of_isUnit h hr
  have hnum := numeral_of_isWritten hw hend
  rw [Size.css, String.toList_append, List.append_assoc]
  generalize hcs : (Number.finite x).css.toList = cs at *
  -- The numeral begins with a digit, or with a sign and a digit.
  obtain ⟨c, ds, he, hstart⟩ : ∃ c ds, cs ++ ((unit.getD "").toList ++ rest) = c :: ds ∧
      (c.isDigit ∨ c = '-' ∧ startsDigit ds) := by
    obtain ⟨rfl, hn, hdigit, _⟩ := hw
    obtain ⟨c, whole, hc⟩ := List.exists_cons_of_ne_nil hn
    have hc' := hdigit c (by simp [hc])
    subst hc
    cases negative
    · exact ⟨_, _, rfl, .inl hc'⟩
    · exact ⟨_, _, rfl, .inr ⟨rfl, hc'⟩⟩
  rw [he] at hnum ⊢
  have hnumber : startsNumber (c :: ds) := by
    rcases hstart with h | ⟨rfl, h⟩
    · have : c ≠ '+' ∧ c ≠ '-' ∧ c ≠ '.' := by
        refine ⟨?_, ?_, ?_⟩ <;> (rintro rfl; cases h)
      rw [startsNumber_cons this.1 this.2.1 this.2.2, h]
    · cases ds
      case nil => cases h
      case cons d ds =>
        have : d ≠ '.' := by
          rintro rfl
          cases h
        simpa [startsNumber, startsUnsigned_cons this, startsDigit] using h
  have hfirst : Selector.isQuote c = false ∧ c ≠ '#' ∧ c ≠ '@' ∧ isBlank c = false ∧ c ≠ '/' := by
    rcases hstart with h | ⟨rfl, _⟩
    · have := of_isAscii (p := fun c => !c.isDigit || (!Selector.isQuote c && c != '#' &&
        c != '@' && !isBlank c && c != '/')) (by decide) (isAscii_of_isDigit h)
      simpa [h, and_assoc] using this
    · decide
  obtain ⟨hq, hh, ha, hb, hs⟩ := hfirst
  have hgap : startsGap (c :: ds) = false := startsGap_cons hb hs
  have hl : lexeme true c ds = number true (c :: ds) := by
    simp [lexeme, hq, hh, ha, hnumber]
  have hnumber : number true (c :: ds) =
      ⟨.ok (.number x.asRead unit (String.ofList cs)), cs ++ (unit.getD "").toList, rest⟩ := by
    simp [number, hnum, hd, hunit, hx]
  rw [← hcs, String.ofList_toList] at hnumber
  exact ⟨hgap, .lexeme hgap (hl.trans hnumber) .done⟩

end Stylesheet.Lexing
