import Stylesheet.Proofs.Token.Pieces
/-!
What the lexer sees of the text behind a token. A token depends on no more of that text than whether
it could go on there; a text that continues nothing more than another (`ContinuesLess`) may stand in
its place. Main statement: `lexeme_congr`.
-/

namespace Stylesheet.Lexing

variable {multibyte : Bool} {pending : Pending} {c d quote : Char}
  {cs ds rest rest' w w' front : List Char}

def startsBlank (cs : List Char) : Bool :=
  cs.head?.any Text.isBlank

def startsFraction : List Char → Bool
  | c :: rest => c == '.' && startsDigit rest
  | [] => false

def startsSigned (cs : List Char) : Bool :=
  startsDigit (signSpan cs).2

def startsExponent : List Char → Bool
  | c :: rest => (c == 'e' || c == 'E') && startsSigned rest
  | [] => false

-- Whatever the lexer asks of the text behind a token has the same answer for two texts, except that
-- the second may continue less: no name, and no escape by a blank.
structure LooksLike (multibyte : Bool) (cs ds : List Char) : Prop where
  blank : startsBlank ds → startsBlank cs
  digit : startsDigit ds = startsDigit cs
  fraction : startsFraction ds = startsFraction cs
  signed : startsSigned ds = startsSigned cs
  exponent : startsExponent ds = startsExponent cs
  escape : startsEscape ds = startsEscape cs
  name : startsName multibyte ds → startsName multibyte cs
  identifier : startsIdentifier multibyte ds → startsIdentifier multibyte cs
  hyphened : startsIdentifier multibyte ('-' :: ds) → startsIdentifier multibyte ('-' :: cs)
  head : ∀ c ∈ ['(', '%', '*'], (ds.head? == some c) = (cs.head? == some c)

theorem startsDigit_cons : startsDigit (c :: cs) = c.isDigit :=
  rfl

theorem startsUnsigned_eq (cs : List Char) :
    startsUnsigned cs = (startsDigit cs || startsFraction cs) := by
  cases cs
  case nil => rfl
  case cons c cs =>
    by_cases hc : c = '.'
    · subst hc
      simp [startsUnsigned, startsDigit_cons, startsFraction]
    · simp [startsUnsigned_cons hc, startsDigit_cons, startsFraction, hc]

theorem startsSigned_cons (c : Char) (cs : List Char) :
    startsSigned (c :: cs) = if c = '+' || c = '-' then startsDigit cs else c.isDigit := by
  simp only [startsSigned, signSpan]
  split <;> rfl

theorem startsIdentifier_hyphen (c : Char) (cs : List Char) :
    startsIdentifier multibyte ('-' :: c :: cs) =
      (c == '-' || isNameStart multibyte c || startsEscape (c :: cs)) := by
  by_cases hc : c = '-'
  · subst hc
    rfl
  · have hc' : (c == '-') = false := by simpa using hc
    rw [hc', Bool.false_or]
    exact startsIdentifier.eq_2 _ _ _ fun h => hc h

theorem of_mem_stops (hc : c ∈ stops) : c.isDigit = false ∧ c ≠ '.' ∧ c ≠ '+' ∧ c ≠ '-' ∧
    c ≠ 'e' ∧ c ≠ 'E' ∧ c ≠ '\\' ∧ ∀ b, isNameChar b c = false ∧ isNameStart b c = false :=
  (by decide : ∀ c ∈ stops, c.isDigit = false ∧ c ≠ '.' ∧ c ≠ '+' ∧ c ≠ '-' ∧ c ≠ 'e' ∧ c ≠ 'E' ∧
    c ≠ '\\' ∧ ∀ b, isNameChar b c = false ∧ isNameStart b c = false) c hc

namespace LooksLike

theorem refl : LooksLike multibyte cs cs := by
  constructor <;> simp

-- Texts look alike behind the same character too, unless it is a backslash.
theorem cons (hc : c ≠ '\\') (h : LooksLike multibyte cs ds) :
    LooksLike multibyte (c :: cs) (c :: ds) where
  blank := id
  digit := rfl
  fraction := by simp only [startsFraction, h.digit]
  signed := by simp only [startsSigned_cons, h.digit]
  exponent := by simp only [startsExponent, h.signed]
  escape := by rw [startsEscape_cons hc, startsEscape_cons hc]
  name := by simp [startsName, startsEscape_cons hc]
  identifier := by
    by_cases hm : c = '-'
    · rw [hm]
      exact h.hyphened
    · simp [startsIdentifier_cons hm, startsEscape_cons hc]
  hyphened := by simp [startsIdentifier_hyphen, startsEscape_cons hc]
  head _ _ := rfl

-- Behind an escaped character nothing is seen, nor behind one that can be first only.
theorem escaped (c : Char) (cs ds : List Char) :
    LooksLike multibyte ('\\' :: c :: cs) ('\\' :: c :: ds) := by
  constructor <;> simp [startsBlank, startsDigit_cons, startsFraction, startsSigned_cons,
    startsExponent, startsEscape, startsName, startsIdentifier_cons, startsIdentifier_hyphen]

def isInert (c : Char) : Bool :=
  !(['\\', '.', '-', '+', 'e', 'E'].contains c)

theorem inert (h : isInert c) (cs ds : List Char) :
    LooksLike multibyte (c :: cs) (c :: ds) := by
  simp only [isInert, Bool.not_eq_true', List.contains_eq_mem, List.mem_cons, List.not_mem_nil,
    or_false, decide_eq_false_iff_not, not_or] at h
  obtain ⟨hb, hd, hm, hp, he, hE⟩ := h
  constructor <;>
    simp [startsBlank, startsDigit_cons, startsFraction, startsSigned_cons, startsExponent,
      startsEscape_cons, startsName, startsIdentifier_cons hm, startsIdentifier_hyphen, hb, hm,
      hp, beq_eq_false_iff_ne.mpr hd, beq_eq_false_iff_ne.mpr he, beq_eq_false_iff_ne.mpr hE]

-- Nothing goes on where every token stops.
theorem not_starts_of_stops (h : Stops cs) : startsDigit cs = false ∧ startsFraction cs = false ∧
    startsSigned cs = false ∧ startsExponent cs = false ∧ startsEscape cs = false ∧
    startsName multibyte cs = false ∧ startsIdentifier multibyte cs = false ∧
    startsIdentifier multibyte ('-' :: cs) = false ∧
    ∀ c ∈ ['(', '%', '*'], (cs.head? == some c) = false := by
  cases cs
  case nil => cases multibyte <;> decide
  case cons c cs =>
    obtain ⟨hd, hp, hs, hm, he, hE, hb, hn⟩ := of_mem_stops (h c rfl)
    have hh := (by decide : ∀ c ∈ stops, ∀ d ∈ ['(', '%', '*'], (some c == some d) = false) c
      (h c rfl)
    obtain ⟨hn, hns⟩ := hn multibyte
    refine ⟨hd, ?_, ?_, ?_, startsEscape_cons hb, ?_, ?_, ?_, hh⟩
    · simp [startsFraction, hp]
    · simp [startsSigned_cons, hs, hm, hd]
    · simp [startsExponent, he, hE]
    · simp [startsName, hn, startsEscape_cons hb]
    · simp [startsIdentifier_cons hm, hns, startsEscape_cons hb]
    · simp [startsIdentifier_hyphen, hm, hns, startsEscape_cons hb]

theorem of_stops (hc : Stops cs) (hd : Stops ds) (hb : startsBlank ds → startsBlank cs) :
    LooksLike multibyte cs ds := by
  obtain ⟨hd₁, hf₁, hs₁, he₁, hb₁, -, -, -, hh₁⟩ := @not_starts_of_stops multibyte _ hc
  obtain ⟨hd₂, hf₂, hs₂, he₂, hb₂, hn, hi, hm, hh₂⟩ := @not_starts_of_stops multibyte _ hd
  constructor
  case blank => exact hb
  case head => exact fun c hc => (hh₂ c hc).trans (hh₁ c hc).symm
  all_goals simp_all only [Bool.false_eq_true, false_implies]

end LooksLike

/-! ### In front of what ends every token -/

theorem startsDigit_stop (hc : c ∈ stops) : startsDigit (cs ++ c :: ds) = startsDigit cs := by
  cases cs
  case nil => exact (of_mem_stops hc).1
  case cons => rfl

theorem startsSigned_stop (hc : c ∈ stops) : startsSigned (cs ++ c :: ds) = startsSigned cs := by
  cases cs
  case nil =>
    obtain ⟨hd, -, hp, hm, -⟩ := of_mem_stops hc
    rw [List.nil_append, startsSigned_cons, if_neg (by simp [hp, hm]), hd]
    rfl
  case cons => rw [List.cons_append, startsSigned_cons, startsSigned_cons, startsDigit_stop hc]

theorem startsEscape_stop (hc : c ∈ stops) (h : cs ≠ ['\\']) :
    startsEscape (cs ++ c :: ds) = startsEscape cs := by
  match cs with
  | [] =>
    obtain ⟨-, -, -, -, -, -, hb, -⟩ := of_mem_stops hc
    exact startsEscape_cons hb
  | d :: _ :: _ =>
    by_cases hd : d = '\\'
    · subst hd
      rfl
    · simp [startsEscape_cons hd]
  | [d] =>
    have hd : d ≠ '\\' := fun hd => h (by rw [hd])
    simp [startsEscape_cons hd]

theorem startsIdentifier_hyphen_stop (hc : c ∈ stops) (h : cs ≠ ['\\']) :
    startsIdentifier multibyte ('-' :: (cs ++ c :: ds)) = startsIdentifier multibyte ('-' :: cs) := by
  cases cs
  case nil =>
    obtain ⟨-, -, -, hm, -, -, hb, hn⟩ := of_mem_stops hc
    rw [List.nil_append, startsIdentifier_hyphen, startsEscape_cons hb, (hn multibyte).2,
      beq_eq_false_iff_ne.mpr hm]
    cases multibyte <;> rfl
  case cons d cs =>
    have := @startsEscape_stop _ _ ds hc h
    simp_all [startsIdentifier_hyphen]

theorem startsIdentifier_stop (hc : c ∈ stops) (h : cs ≠ ['\\']) (hm : cs ≠ ['-', '\\']) :
    startsIdentifier multibyte (cs ++ c :: ds) = startsIdentifier multibyte cs := by
  cases cs
  case nil =>
    obtain ⟨-, -, -, hm, -, -, hb, hn⟩ := of_mem_stops hc
    rw [List.nil_append, startsIdentifier_cons hm, startsEscape_cons hb, (hn multibyte).2]
    rfl
  case cons d cs =>
    have hescape := @startsEscape_stop _ _ ds hc h
    by_cases hd : d = '-'
    case neg =>
      rw [List.cons_append] at hescape ⊢
      rw [startsIdentifier_cons hd, startsIdentifier_cons hd, hescape]
    case pos =>
      subst hd
      exact startsIdentifier_hyphen_stop hc fun he => hm (by rw [he])

-- What ends every token goes on with nothing, except for a backslash that waits for its character.
theorem looksLike_stop (hc : c ∈ stops) (hb : Text.isBlank c → cs ≠ []) (h : cs ≠ ['\\'])
    (hm : cs ≠ ['-', '\\']) : LooksLike multibyte cs (cs ++ c :: ds) := by
  have hescape := @startsEscape_stop _ _ ds hc h
  cases cs
  case nil =>
    refine .of_stops (by simp [Stops]) (by simpa [Stops] using hc) fun h => ?_
    exact absurd rfl (hb (by simpa [startsBlank] using h))
  case cons d cs =>
    exact {
      blank := id
      digit := rfl
      fraction := by simp [startsFraction, startsDigit_stop hc]
      signed := startsSigned_stop hc
      exponent := by simp [startsExponent, startsSigned_stop hc]
      escape := hescape
      name := by
        rw [List.cons_append] at hescape ⊢
        simp [startsName, hescape]
      identifier := by rw [startsIdentifier_stop hc h hm]; exact id
      hyphened := by rw [startsIdentifier_hyphen_stop hc h]; exact id
      head := fun _ _ => rfl }

-- The second of two texts continues a token in front of it only if the first does.
structure ContinuesLess (multibyte : Bool) (cs ds : List Char) : Prop where
  blank : startsBlank ds → startsBlank cs
  digit : startsDigit ds → startsDigit cs
  fraction : startsFraction ds → startsFraction cs
  signed : startsSigned ds → startsSigned cs
  exponent : startsExponent ds → startsExponent cs
  name : startsName multibyte ds → startsName multibyte cs
  identifier : startsIdentifier multibyte ds → startsIdentifier multibyte cs
  hyphened : startsIdentifier multibyte ('-' :: ds) → startsIdentifier multibyte ('-' :: cs)
  head : ∀ c ∈ ['(', '%'], ds.head? = some c → cs.head? = some c

theorem LooksLike.continuesLess (h : LooksLike multibyte cs ds) :
    ContinuesLess multibyte cs ds where
  blank := h.blank
  digit hd := h.digit ▸ hd
  fraction hf := h.fraction ▸ hf
  signed hs := h.signed ▸ hs
  exponent he := h.exponent ▸ he
  name := h.name
  identifier := h.identifier
  hyphened := h.hyphened
  head c hc hd := by
    have := h.head c (List.mem_append_left ['*'] hc)
    simpa [hd] using this.symm

theorem startsDigit_append_of (h : startsDigit cs) : startsDigit (cs ++ ds) := by
  cases cs
  case nil => cases h
  case cons => exact h

theorem startsSigned_append_of (h : startsSigned cs) : startsSigned (cs ++ ds) := by
  cases cs
  case nil => cases h
  case cons c cs =>
    rw [List.cons_append, startsSigned_cons] at *
    split
    case isTrue hs => exact startsDigit_append_of (by simpa [hs] using h)
    case isFalse hs => simpa [hs] using h

theorem startsExponent_append_of (h : startsExponent cs) : startsExponent (cs ++ ds) := by
  cases cs
  case nil => cases h
  case cons c cs =>
    simp only [List.cons_append, startsExponent, Bool.and_eq_true] at h ⊢
    exact h.imp_right startsSigned_append_of

theorem startsEscape_append_of (h : startsEscape cs) : startsEscape (cs ++ ds) := by
  match cs with
  | [] => cases h
  | [c] =>
    by_cases hc : c = '\\'
    · subst hc
      cases h
    · rw [startsEscape_cons hc] at h
      cases h
  | c :: d :: cs =>
    by_cases hc : c = '\\'
    · subst hc
      exact h
    · rw [startsEscape_cons hc] at h
      cases h

namespace ContinuesLess

theorem trans {es : List Char} (h₁ : ContinuesLess multibyte cs ds)
    (h₂ : ContinuesLess multibyte ds es) : ContinuesLess multibyte cs es where
  blank h := h₁.blank (h₂.blank h)
  digit h := h₁.digit (h₂.digit h)
  fraction h := h₁.fraction (h₂.fraction h)
  signed h := h₁.signed (h₂.signed h)
  exponent h := h₁.exponent (h₂.exponent h)
  name h := h₁.name (h₂.name h)
  identifier h := h₁.identifier (h₂.identifier h)
  hyphened h := h₁.hyphened (h₂.hyphened h)
  head c hc h := h₁.head c hc (h₂.head c hc h)

-- Behind the same character it is the same, unless that is a backslash.
theorem cons (hc : c ≠ '\\') (h : ContinuesLess multibyte cs ds) :
    ContinuesLess multibyte (c :: cs) (c :: ds) where
  blank := id
  digit := id
  fraction := by
    simp only [startsFraction, Bool.and_eq_true]
    exact And.imp_right h.digit
  signed := by
    simp only [startsSigned_cons]
    split
    · exact h.digit
    · exact id
  exponent := by
    simp only [startsExponent, Bool.and_eq_true]
    exact And.imp_right h.signed
  name := by simp [startsName, startsEscape_cons hc]
  identifier := by
    by_cases hm : c = '-'
    · rw [hm]
      exact h.hyphened
    · simp [startsIdentifier_cons hm, startsEscape_cons hc]
  hyphened := by simp [startsIdentifier_hyphen, startsEscape_cons hc]
  head _ _ := id

theorem number (h : ContinuesLess multibyte cs ds) (hs : startsNumber (c :: ds)) :
    startsNumber (c :: cs) := by
  simp only [startsNumber, startsUnsigned_eq, startsDigit_cons, startsFraction] at hs ⊢
  split at hs
  · next hc =>
    rw [if_pos hc]
    simp only [Bool.or_eq_true] at hs ⊢
    exact hs.imp h.digit h.fraction
  · next hc =>
    rw [if_neg hc]
    simp only [Bool.or_eq_true, Bool.and_eq_true] at hs ⊢
    exact hs.imp_right (And.imp_right h.digit)

-- A text continues less than the text that goes on behind it.
theorem of_append (cs ds : List Char) : ContinuesLess multibyte (cs ++ ds) cs := by
  cases cs
  case nil =>
    obtain ⟨hd, hf, hs, he, -, hn, hi, hm, hh⟩ :=
      @LooksLike.not_starts_of_stops multibyte _ stops_nil
    constructor
    case blank => exact fun h => by cases h
    case head => exact fun _ _ h => by cases h
    all_goals simp_all only [Bool.false_eq_true, false_implies]
  case cons c cs =>
    have hescape := @startsEscape_append_of (c :: cs) ds
    rw [List.cons_append] at hescape ⊢
    have hhyphen : startsIdentifier multibyte ('-' :: c :: cs) →
        startsIdentifier multibyte ('-' :: c :: (cs ++ ds)) := by
      simp only [startsIdentifier_hyphen, Bool.or_eq_true]
      exact Or.imp_right hescape
    exact {
      blank := id
      digit := id
      fraction := by
        simp only [startsFraction, Bool.and_eq_true]
        exact And.imp_right startsDigit_append_of
      signed := startsSigned_append_of
      exponent := startsExponent_append_of
      name := by
        simp only [startsName, Bool.or_eq_true]
        exact Or.imp_right hescape
      identifier := by
        by_cases hm : c = '-'
        case neg =>
          simp only [startsIdentifier_cons hm, Bool.or_eq_true]
          exact Or.imp_right hescape
        case pos =>
          subst hm
          cases cs
          case nil => intro h; cases multibyte <;> cases h
          case cons d cs =>
            have hescape := @startsEscape_append_of (d :: cs) ds
            simp only [List.cons_append, startsIdentifier_hyphen, Bool.or_eq_true] at hescape ⊢
            exact Or.imp_right hescape
      hyphened := hhyphen
      head := fun _ _ => id }

end ContinuesLess

/-! ### Spans -/

theorem isAscii_of_isHexDigit (h : Text.isHexDigit c) : Text.isAscii c := by
  simp only [Text.isHexDigit, Bool.or_eq_true, Bool.and_eq_true, decide_eq_true_eq] at h
  obtain (h | h) | h := h
  · exact Text.isAscii_of_isDigit h
  · exact decide_eq_true (Nat.lt_of_le_of_lt (Char.le_def.mp h.2) (by decide))
  · exact decide_eq_true (Nat.lt_of_le_of_lt (Char.le_def.mp h.2) (by decide))

theorem isNameChar_of_isHexDigit (h : Text.isHexDigit c) : isNameChar multibyte c := by
  have := Text.of_isAscii (p := fun c => !Text.isHexDigit c || isNameChar false c) (by decide)
    (isAscii_of_isHexDigit h)
  simp only [h, Bool.not_true, Bool.false_or] at this
  cases multibyte
  case false => exact this
  case true =>
    simp only [isNameChar, isNameStart, Bool.and_false, Bool.or_false] at this
    grind [isNameChar, isNameStart]

theorem take?_ne_any {pending' : Pending} (h : pending.take? c = some pending') :
    pending' ≠ .any := by
  rintro rfl
  unfold Pending.take? at h
  split at h
  · cases h
  · split at h <;> cases h
  · split at h
    · cases h
    · split at h <;> cases h

-- A name does not go on where nothing can continue it.
theorem nameSpan_stop (hp : pending ≠ .any) (hn : ¬startsName multibyte rest)
    (hb : pending ≠ .nothing → ¬startsBlank rest) :
    nameSpan multibyte pending rest = ([], rest) := by
  cases rest
  case nil => rfl
  case cons c rest =>
    obtain ⟨hc, he⟩ : isNameChar multibyte c = false ∧ startsEscape (c :: rest) = false := by
      simpa [startsName] using hn
    have htake : pending.take? c = none := by
      cases pending
      case nothing => rfl
      case any => exact absurd rfl hp
      case hex left code =>
        have hx : Text.isHexDigit c = false :=
          eq_false_of_ne_true fun hx => by simp [isNameChar_of_isHexDigit hx] at hc
        have hblank : Text.isBlank c = false := by simpa [startsBlank] using hb (by simp)
        simp [Pending.take?, hx, hblank]
    simp [nameSpan, htake, hc, he]

theorem nameSpan_congr (h : nameSpan multibyte pending cs = (w, rest))
    (hp : pending = .any → cs ≠ []) (hl : ContinuesLess multibyte rest rest') :
    nameSpan multibyte pending (w ++ rest') = (w, rest') := by
  fun_induction nameSpan multibyte pending cs generalizing w
  case case1 pending =>
    obtain ⟨rfl, rfl⟩ := Prod.mk.inj h
    refine nameSpan_stop (fun he => hp he rfl) (fun hn => ?_) fun _ hb => ?_
    · exact absurd (hl.name hn) (by simp [startsName])
    · exact absurd (hl.blank hb) (by simp [startsBlank])
  case case2 pending c cs pending' htake ih =>
    obtain ⟨w', rest, hs⟩ : ∃ w' r, nameSpan multibyte pending' cs = (w', r) := ⟨_, _, rfl⟩
    obtain ⟨rfl, rfl⟩ := Prod.mk.inj (h.symm.trans (congrArg (extend c) hs))
    have := ih hs (fun he => absurd he (take?_ne_any htake))
    simp [nameSpan, htake, this, extend]
  case case3 pending c cs htake hc ih =>
    obtain ⟨w', rest, hs⟩ : ∃ w' r, nameSpan multibyte .nothing cs = (w', r) := ⟨_, _, rfl⟩
    obtain ⟨rfl, rfl⟩ := Prod.mk.inj (h.symm.trans (congrArg (extend c) hs))
    have := ih hs (by simp)
    simp [nameSpan, htake, hc, this, extend]
  case case4 pending c cs htake hc he ih =>
    obtain ⟨w', rest, hs⟩ : ∃ w' r, nameSpan multibyte .any cs = (w', r) := ⟨_, _, rfl⟩
    obtain ⟨rfl, rfl⟩ := Prod.mk.inj (h.symm.trans (congrArg (extend c) hs))
    obtain ⟨d, cs, rfl⟩ : ∃ d ds, cs = d :: ds := by
      cases cs
      case nil => simp [startsEscape] at he
      case cons d ds => exact ⟨d, ds, rfl⟩
    have hrest := ih hs (by simp)
    obtain ⟨w'', rfl⟩ : ∃ w'', w' = d :: w'' := by
      simp only [nameSpan, Pending.take?, extend] at hs
      exact ⟨_, (congrArg Prod.fst hs).symm⟩
    have hstarts : startsEscape (c :: d :: (w'' ++ rest')) := by
      by_cases hb : c = '\\'
      · subst hb
        exact he
      · simp [startsEscape_cons hb] at he
    rw [List.cons_append] at hrest
    simp only [List.cons_append, nameSpan, htake, hc, hstarts, Bool.false_eq_true, if_false,
      if_true]
    exact congrArg (extend c) hrest
  case case5 pending c cs htake hc he =>
    obtain ⟨rfl, rfl⟩ := Prod.mk.inj h
    have hname : startsName multibyte (c :: cs) = false := by simp [startsName, hc, he]
    refine nameSpan_stop ?_ (fun hn => ?_) fun hnothing hb => ?_
    · rintro rfl
      simp [Pending.take?] at htake
    · exact absurd (hl.name hn) (by simp [hname])
    · have hblank : Text.isBlank c := by simpa [startsBlank] using hl.blank hb
      cases pending
      case nothing => exact hnothing rfl
      case any => cases htake
      case hex =>
        simp only [Pending.take?, hblank, if_true] at htake
        split at htake <;> cases htake

theorem nameSpan_cons (hc : isNameChar multibyte c) :
    nameSpan multibyte .nothing (c :: cs) = extend c (nameSpan multibyte .nothing cs) := by
  simp [nameSpan, Pending.take?, hc]

-- What is behind a name continues it less also seen from the beginning of the name.
theorem continuesLess_nameSpan (h : nameSpan multibyte .nothing cs = (w, rest))
    (hl : ContinuesLess multibyte rest rest') :
    ContinuesLess multibyte (w ++ rest) (w ++ rest') := by
  induction cs generalizing w
  case nil =>
    obtain ⟨rfl, rfl⟩ := Prod.mk.inj h
    exact hl
  case cons c cs ih =>
    by_cases hc : isNameChar multibyte c
    case pos =>
      rw [nameSpan_cons hc] at h
      obtain ⟨rfl, rfl⟩ := Prod.mk.inj h
      refine (ih rfl).cons ?_
      rintro rfl
      cases multibyte <;> cases hc
    case neg =>
      simp only [nameSpan, Pending.take?, hc, Bool.false_eq_true, if_false] at h
      split at h
      case isTrue he =>
        cases cs
        case nil => simp [startsEscape] at he
        case cons d cs =>
          by_cases hb : c = '\\'
          · subst hb
            obtain ⟨rfl, -⟩ := Prod.mk.inj h
            exact (LooksLike.escaped ..).continuesLess
          · simp [startsEscape_cons hb] at he
      case isFalse =>
        obtain ⟨rfl, rfl⟩ := Prod.mk.inj h
        exact hl

-- A name is taken whole.
theorem not_startsName_nameSpan (h : nameSpan multibyte pending cs = (w, rest)) :
    startsName multibyte rest = false := by
  fun_induction nameSpan multibyte pending cs generalizing w
  case case1 =>
    obtain ⟨-, rfl⟩ := Prod.mk.inj h
    rfl
  case case2 ih | case3 ih | case4 ih =>
    obtain ⟨-, rfl⟩ := Prod.mk.inj h
    exact ih rfl
  case case5 hc he =>
    obtain ⟨-, rfl⟩ := Prod.mk.inj h
    simp [startsName, hc, he]

-- What is behind a name does not matter to how it begins. An escape is part of it with the character
-- behind the backslash.
theorem startsEscape_nameSpan (rest' : List Char)
    (h : nameSpan multibyte .nothing (c :: cs) = (c :: w, rest)) :
    startsEscape (c :: (w ++ rest')) = startsEscape (c :: cs) := by
  by_cases hb : c = '\\'
  case neg => rw [startsEscape_cons hb, startsEscape_cons hb]
  case pos =>
    subst hb
    have hn : isNameChar multibyte '\\' = false := by cases multibyte <;> rfl
    simp only [nameSpan, Pending.take?, hn, Bool.false_eq_true, if_false] at h
    split at h
    case isFalse => cases h
    case isTrue he =>
      cases cs
      case nil => cases he
      case cons d cs =>
        obtain ⟨hw, -⟩ := Prod.mk.inj h
        simp only [nameSpan, Pending.take?, extend, List.cons.injEq, true_and] at hw
        rw [← hw]
        rfl

theorem startsName_congr (rest' : List Char) (h : nameSpan multibyte .nothing cs = (w, rest))
    (hs : startsName multibyte cs) : startsName multibyte (w ++ rest') := by
  have happend := nameSpan_append multibyte .nothing cs
  rw [h] at happend
  subst happend
  cases w
  case nil => exact absurd hs (by simp [not_startsName_nameSpan h])
  case cons c w =>
    have hescape := startsEscape_nameSpan rest' h
    simp_all [startsName]

theorem startsIdentifier_congr (rest' : List Char)
    (h : nameSpan multibyte .nothing cs = (w, rest)) (hs : startsIdentifier multibyte cs) :
    startsIdentifier multibyte (w ++ rest') := by
  have happend := nameSpan_append multibyte .nothing cs
  rw [h] at happend
  subst happend
  cases w
  case nil =>
    cases rest
    case nil => cases hs
    case cons => exact absurd (congrArg Prod.fst h) (nameSpan_ne_nil hs)
  case cons c w =>
    by_cases hc : c = '-'
    case neg =>
      have hescape := startsEscape_nameSpan rest' h
      simp_all [startsIdentifier_cons hc]
    case pos =>
      subst hc
      have hhyphen : isNameChar multibyte '-' := by cases multibyte <;> rfl
      rw [List.cons_append, nameSpan_cons hhyphen] at h
      obtain ⟨hw, hr⟩ := Prod.mk.inj h
      have h : nameSpan multibyte .nothing (w ++ rest) = (w, rest) :=
        Prod.ext (List.cons.inj hw).2 hr
      cases w
      case nil =>
        -- A lone hyphen would go on with what makes it an identifier.
        have hn := not_startsName_nameSpan h
        cases rest
        case nil => cases multibyte <;> cases hs
        case cons c rest =>
          simp_all [startsIdentifier_hyphen, startsName, isNameChar]
      case cons d w =>
        have hescape := startsEscape_nameSpan rest' h
        simp_all [startsIdentifier_hyphen]

theorem stringSpan_congr (h : stringSpan quote pending cs = (w, c :: rest)) :
    stringSpan quote pending (w ++ c :: rest') = (w, c :: rest') := by
  fun_induction stringSpan quote pending cs generalizing w
  case case1 => cases h
  case case2 htake ih =>
    obtain ⟨rfl, hr⟩ := Prod.mk.inj h
    simp [stringSpan, htake, ih (Prod.ext rfl hr), extend]
  case case3 htake hc =>
    obtain ⟨rfl, hr⟩ := Prod.mk.inj h
    obtain ⟨rfl, -⟩ := List.cons.inj hr
    simp [stringSpan, htake, hc]
  case case4 htake hc ih =>
    obtain ⟨rfl, hr⟩ := Prod.mk.inj h
    simp [stringSpan, htake, hc, ih (Prod.ext rfl hr), extend]

-- A target ends also in front of something else, if that is white space only where it was before.
theorem targetSpan_congr (h : targetSpan pending cs = (w, c :: rest)) (hc : endsTarget c)
    (hd : endsTarget d) (hb : Text.isBlank d → Text.isBlank c) :
    targetSpan pending (w ++ d :: rest') = (w, d :: rest') := by
  fun_induction targetSpan pending cs generalizing w
  case case1 => cases h
  case case2 htake ih =>
    obtain ⟨rfl, hr⟩ := Prod.mk.inj h
    simp [targetSpan, htake, ih (Prod.ext rfl hr), extend]
  case case3 pending _ _ htake _ =>
    obtain ⟨rfl, hr⟩ := Prod.mk.inj h
    obtain ⟨rfl, -⟩ := List.cons.inj hr
    have htake' : pending.take? d = none := by
      cases pending
      case nothing => rfl
      case any => cases htake
      case hex left code =>
        have hx : Text.isHexDigit d = false := eq_false_of_ne_true fun hx => by
          have := Text.of_isAscii (p := fun c => !(endsTarget c && Text.isHexDigit c)) (by decide)
            (isAscii_of_isHexDigit hx)
          simp [hd, hx] at this
        have hblank : Text.isBlank d = false := eq_false_of_ne_true fun h => by
          simp [Pending.take?, hb h] at htake
          split at htake <;> cases htake
        simp [Pending.take?, hx, hblank]
    simp [targetSpan, htake', hd]
  case case4 rest htake he hs ih =>
    obtain ⟨w', r, hspan⟩ : ∃ w' r, targetSpan .any rest = (w', r) := ⟨_, _, rfl⟩
    rw [hspan] at h
    obtain ⟨rfl, rfl⟩ := Prod.mk.inj h
    cases rest
    case nil => simp [startsEscape] at hs
    case cons e rest =>
      have hrest := ih hspan
      obtain ⟨w, rfl⟩ : ∃ w, w' = e :: w := ⟨_, (congrArg Prod.fst hspan).symm⟩
      have hstarts : startsEscape ('\\' :: (e :: w ++ d :: rest')) := hs
      rw [List.cons_append, targetSpan, htake]
      simp only [he, hstarts, Bool.false_eq_true, if_false, if_true, hrest, extend]
  case case5 =>
    obtain ⟨rfl, hr⟩ := Prod.mk.inj h
    obtain ⟨rfl, -⟩ := List.cons.inj hr
    exact absurd hc (by decide)
  case case6 htake hd hb ih =>
    obtain ⟨rfl, hr⟩ := Prod.mk.inj h
    simp [targetSpan, htake, hd, hb, ih (Prod.ext rfl hr), extend]

theorem startsDigit_digitSpan (cs : List Char) : startsDigit (digitSpan cs).2 = false := by
  cases hd : (digitSpan cs).2
  case nil => rfl
  case cons c ds =>
    have hd : cs.dropWhile Char.isDigit = c :: ds := hd
    have := List.head_dropWhile_not Char.isDigit (hd ▸ List.cons_ne_nil c ds)
    simpa [hd, startsDigit_cons] using this

theorem digitSpan_congr (h : digitSpan cs = (w, rest)) (hd : startsDigit rest' = false) :
    digitSpan (w ++ rest') = (w, rest') := by
  obtain ⟨rfl, rfl⟩ := Prod.mk.inj h
  have hw : ∀ c ∈ cs.takeWhile Char.isDigit, c.isDigit :=
    List.all_eq_true.mp List.all_takeWhile
  have htake : rest'.takeWhile Char.isDigit = [] ∧ rest'.dropWhile Char.isDigit = rest' := by
    cases rest'
    case nil => exact ⟨rfl, rfl⟩
    case cons c ds =>
      rw [startsDigit_cons] at hd
      simp [hd]
  simp [digitSpan, List.takeWhile_append_of_pos hw, List.dropWhile_append_of_pos hw, htake]

theorem signSpan_congr (h : signSpan cs = (w, rest))
    (hh : w = [] → rest'.head? = rest.head?) : signSpan (w ++ rest') = (w, rest') := by
  cases cs
  case nil =>
    obtain ⟨rfl, rfl⟩ := Prod.mk.inj h
    obtain rfl : rest' = [] := List.head?_eq_none_iff.mp (hh rfl)
    rfl
  case cons c cs =>
    simp only [signSpan] at h
    split at h
    case isTrue hc =>
      obtain ⟨rfl, rfl⟩ := Prod.mk.inj h
      simp only [List.singleton_append, signSpan, hc, if_true]
    case isFalse hc =>
      obtain ⟨rfl, rfl⟩ := Prod.mk.inj h
      obtain ⟨ds, rfl⟩ := List.head?_eq_some_iff.mp (hh rfl)
      simp only [List.nil_append, signSpan, hc, Bool.false_eq_true, if_false]

-- The characters of a numeral in front of its exponent.
def isNumeric (c : Char) : Bool :=
  c.isDigit || ['+', '-', '.'].contains c

def isExponentLetter (c : Char) : Bool :=
  c == 'e' || c == 'E'

theorem not_isExponentLetter (h : isNumeric c) : isExponentLetter c = false := by
  simp only [isExponentLetter, Bool.or_eq_false_iff, beq_eq_false_iff_ne]
  constructor <;> (rintro rfl; exact absurd h (by decide))

theorem isNumeric_digitSpan (h : digitSpan cs = (w, rest)) : ∀ c ∈ w, isNumeric c := by
  obtain ⟨rfl, -⟩ := Prod.mk.inj h
  intro c hc
  simp [isNumeric, List.all_eq_true.mp List.all_takeWhile c hc]

theorem exists_cons_digitSpan (h : startsDigit cs) (hs : digitSpan cs = (w, rest)) :
    ∃ c w', w = c :: w' ∧ c.isDigit := by
  obtain ⟨rfl, -⟩ := Prod.mk.inj hs
  cases cs
  case nil => cases h
  case cons c cs => exact ⟨c, cs.takeWhile Char.isDigit, List.takeWhile_cons_of_pos h, h⟩

theorem fractionSpan_of_not (h : startsFraction cs = false) : fractionSpan cs = ([], cs) := by
  cases cs
  case nil => rfl
  case cons c cs =>
    by_cases hc : c = '.'
    · subst hc
      have hd : startsDigit cs = false := by simpa [startsFraction] using h
      simp [fractionSpan, hd]
    · unfold fractionSpan
      split
      · next he => exact absurd (List.cons.inj he).1 hc
      · rfl

theorem fractionSpan_of_startsFraction (h : startsFraction cs) :
    ∃ ds, cs = '.' :: ds ∧ startsDigit ds ∧ fractionSpan cs = extend '.' (digitSpan ds) := by
  cases cs
  case nil => cases h
  case cons c cs =>
    obtain ⟨rfl, hd⟩ : c = '.' ∧ startsDigit cs := by simpa [startsFraction] using h
    exact ⟨cs, rfl, hd, by rw [fractionSpan, if_pos hd]⟩

theorem isNumeric_fractionSpan (h : fractionSpan cs = (w, rest)) :
    (∀ c ∈ w, isNumeric c) ∧ (w = [] ∨ ∃ ds, w = '.' :: ds) := by
  cases hs : startsFraction cs
  case false =>
    rw [fractionSpan_of_not hs] at h
    obtain ⟨rfl, -⟩ := Prod.mk.inj h
    exact ⟨by simp, .inl rfl⟩
  case true =>
    obtain ⟨ds, -, -, hfraction⟩ := fractionSpan_of_startsFraction hs
    rw [hfraction] at h
    obtain ⟨rfl, -⟩ := Prod.mk.inj h
    exact ⟨List.forall_mem_cons.mpr ⟨by decide, isNumeric_digitSpan rfl⟩, .inr ⟨_, rfl⟩⟩

theorem fractionSpan_congr (h : fractionSpan cs = (w, rest)) (hd : startsDigit rest' = false)
    (hf : startsFraction rest' → startsFraction rest) : fractionSpan (w ++ rest') = (w, rest') := by
  cases hs : startsFraction cs
  case false =>
    rw [fractionSpan_of_not hs] at h
    obtain ⟨rfl, rfl⟩ := Prod.mk.inj h
    exact fractionSpan_of_not (eq_false_of_ne_true fun h => by simp [hf h] at hs)
  case true =>
    obtain ⟨ds, rfl, hds, hfraction⟩ := fractionSpan_of_startsFraction hs
    obtain ⟨digits, r, hspan⟩ : ∃ digits r, digitSpan ds = (digits, r) := ⟨_, _, rfl⟩
    rw [hfraction, hspan] at h
    obtain ⟨rfl, rfl⟩ := Prod.mk.inj h
    obtain ⟨d, digits, rfl, hdigit⟩ := exists_cons_digitSpan hds hspan
    rw [List.cons_append, fractionSpan, if_pos (by exact hdigit), digitSpan_congr hspan hd]
    rfl

theorem isNumeric_signSpan (h : signSpan cs = (w, rest)) : ∀ c ∈ w, isNumeric c := by
  cases cs
  case nil =>
    obtain ⟨rfl, -⟩ := Prod.mk.inj h
    simp
  case cons c cs =>
    simp only [signSpan] at h
    split at h
    case isTrue hc =>
      obtain ⟨rfl, -⟩ := Prod.mk.inj h
      simp only [Bool.or_eq_true, decide_eq_true_eq] at hc
      rcases hc with rfl | rfl <;> decide
    case isFalse =>
      obtain ⟨rfl, -⟩ := Prod.mk.inj h
      simp

theorem exponentSpan_of_not (h : startsExponent cs = false) : exponentSpan cs = ([], cs) := by
  cases cs
  case nil => rfl
  case cons e cs =>
    have h : ((decide (e = 'e') || decide (e = 'E')) && startsDigit (signSpan cs).2) = false := h
    simp only [exponentSpan, h, Bool.false_eq_true, if_false]

theorem exponentSpan_of_startsExponent (h : startsExponent cs) :
    ∃ e ds sign digits, cs = e :: ds ∧ isExponentLetter e ∧ signSpan ds = (sign, digits) ∧
      startsDigit digits ∧
      exponentSpan cs = (e :: (sign ++ (digitSpan digits).1), (digitSpan digits).2) := by
  cases cs
  case nil => cases h
  case cons e cs =>
    have hs : ((decide (e = 'e') || decide (e = 'E')) && startsDigit (signSpan cs).2) = true := h
    obtain ⟨hletter, hdigit⟩ := (Bool.and_eq_true ..).mp h
    refine ⟨e, cs, (signSpan cs).1, (signSpan cs).2, rfl, hletter, rfl, hdigit, ?_⟩
    rw [exponentSpan]
    exact if_pos hs

theorem isNumeric_exponentSpan (h : exponentSpan cs = (w, rest)) :
    w = [] ∧ rest = cs ∧ startsExponent cs = false ∨
      ∃ e ds, w = e :: ds ∧ isExponentLetter e ∧ ∀ c ∈ ds, isNumeric c := by
  cases hs : startsExponent cs
  case false =>
    rw [exponentSpan_of_not hs] at h
    obtain ⟨rfl, rfl⟩ := Prod.mk.inj h
    exact .inl ⟨rfl, rfl, rfl⟩
  case true =>
    obtain ⟨e, ds, sign, digits, rfl, hletter, hsign, -, hexponent⟩ :=
      exponentSpan_of_startsExponent hs
    rw [hexponent] at h
    obtain ⟨rfl, -⟩ := Prod.mk.inj h
    refine .inr ⟨e, _, rfl, hletter, fun c hc => ?_⟩
    obtain hc | hc := List.mem_append.mp hc
    · exact isNumeric_signSpan hsign c hc
    · exact isNumeric_digitSpan rfl c hc

theorem exponentSpan_congr (h : exponentSpan cs = (w, rest)) (hd : startsDigit rest' = false)
    (he : w = [] → startsExponent rest' = false) : exponentSpan (w ++ rest') = (w, rest') := by
  cases hs : startsExponent cs
  case false =>
    rw [exponentSpan_of_not hs] at h
    obtain ⟨rfl, rfl⟩ := Prod.mk.inj h
    exact exponentSpan_of_not (he rfl)
  case true =>
    obtain ⟨e, ds, sign, digits, rfl, hletter, hsign, hdigits, hexponent⟩ :=
      exponentSpan_of_startsExponent hs
    obtain ⟨whole, behind, hspan⟩ : ∃ whole behind, digitSpan digits = (whole, behind) :=
      ⟨_, _, rfl⟩
    have happend := digitSpan_append digits
    rw [hspan] at hexponent happend
    rw [hexponent] at h
    obtain ⟨rfl, rfl⟩ := Prod.mk.inj h
    obtain ⟨d, whole, rfl, hdigit⟩ := exists_cons_digitSpan hdigits hspan
    subst happend
    have hsign' : signSpan (sign ++ (d :: whole ++ rest')) = (sign, d :: whole ++ rest') :=
      signSpan_congr hsign fun _ => rfl
    have hfirst : startsDigit (d :: whole ++ rest') := hdigit
    have hwhole := digitSpan_congr hspan hd
    simp only [List.append_assoc, List.cons_append] at hsign' hfirst hwhole ⊢
    have hletter : (decide (e = 'e') || decide (e = 'E')) = true := hletter
    simp only [exponentSpan, hsign', hfirst, hwhole, hletter, Bool.and_true, if_true]

theorem startsDigit_fractionSpan (h : startsDigit cs = false) :
    startsDigit (fractionSpan cs).2 = false := by
  cases hs : startsFraction cs
  case false => rwa [fractionSpan_of_not hs]
  case true =>
    obtain ⟨ds, -, -, hfraction⟩ := fractionSpan_of_startsFraction hs
    rw [hfraction]
    exact startsDigit_digitSpan ds

-- A numeral is taken whole, exponent and all.
theorem not_startsDigit_numeral (cs : List Char) : startsDigit (numeral cs).2 = false := by
  have hfraction := startsDigit_fractionSpan (startsDigit_digitSpan (signSpan cs).2)
  simp only [numeral]
  cases hs : startsExponent (fractionSpan (digitSpan (signSpan cs).2).2).2
  case false => rwa [exponentSpan_of_not hs]
  case true =>
    obtain ⟨e, ds, sign, digits, -, -, -, -, hexponent⟩ := exponentSpan_of_startsExponent hs
    rw [hexponent]
    exact startsDigit_digitSpan digits

def hasExponent (w : List Char) : Bool :=
  w.any isExponentLetter

theorem hasExponent_of_startsExponent (h : startsExponent (numeral cs).2) :
    hasExponent (numeral cs).1 := by
  simp only [numeral] at h ⊢
  cases hs : startsExponent (fractionSpan (digitSpan (signSpan cs).2).2).2
  case false =>
    rw [exponentSpan_of_not hs, hs] at h
    cases h
  case true =>
    obtain ⟨e, ds, sign, digits, -, hletter, -, -, hexponent⟩ := exponentSpan_of_startsExponent hs
    simp [hasExponent, hexponent, hletter]

theorem of_mem_numeral (h : numeral cs = (w, rest)) :
    ∀ c ∈ w, isNumeric c ∨ isExponentLetter c := by
  obtain ⟨rfl, -⟩ := Prod.mk.inj h
  intro c hc
  simp only [List.mem_append] at hc
  obtain ((hc | hc) | hc) | hc := hc
  · exact .inl (isNumeric_signSpan rfl c hc)
  · exact .inl (isNumeric_digitSpan rfl c hc)
  · exact .inl ((isNumeric_fractionSpan rfl).1 c hc)
  · obtain ⟨hnil, -⟩ | ⟨e, ds, hw, hletter, hds⟩ := isNumeric_exponentSpan rfl
    · rw [hnil] at hc
      cases hc
    · rw [hw, List.mem_cons] at hc
      obtain rfl | hc := hc
      · exact .inr hletter
      · exact .inl (hds c hc)

theorem not_mem_numeral (h : numeral cs = (w, rest)) : '\\' ∉ w := fun hm => by
  have := of_mem_numeral h _ hm
  exact absurd this (by decide)

-- A numeral ends in front of whatever goes on as none of its parts.
theorem numeral_congr (h : numeral cs = (w, rest)) (hw : w ≠ []) (hd : startsDigit rest' = false)
    (hf : startsFraction rest' → startsFraction rest)
    (he : startsExponent rest' → hasExponent w) : numeral (w ++ rest') = (w, rest') := by
  obtain ⟨sign, cs₁, hs⟩ : ∃ sign ds, signSpan cs = (sign, ds) := ⟨_, _, rfl⟩
  obtain ⟨whole, cs₂, hwhole⟩ : ∃ whole ds, digitSpan cs₁ = (whole, ds) := ⟨_, _, rfl⟩
  obtain ⟨fraction, cs₃, hfraction⟩ : ∃ fraction ds, fractionSpan cs₂ = (fraction, ds) :=
    ⟨_, _, rfl⟩
  obtain ⟨exponent, cs₄, hexponent⟩ : ∃ exponent ds, exponentSpan cs₃ = (exponent, ds) :=
    ⟨_, _, rfl⟩
  simp only [numeral, hs, hwhole, hfraction, hexponent] at h
  obtain ⟨rfl, rfl⟩ := Prod.mk.inj h
  have hcs₁ := digitSpan_append cs₁
  have hcs₂ := fractionSpan_append cs₂
  have hcs₃ := exponentSpan_append cs₃
  rw [hwhole] at hcs₁
  rw [hfraction] at hcs₂
  rw [hexponent] at hcs₃
  dsimp only at hcs₁ hcs₂ hcs₃
  obtain ⟨hnumeric, hpoint⟩ := isNumeric_fractionSpan hfraction
  have hletter := isNumeric_exponentSpan hexponent
  -- Each part ends in front of the parts behind it.
  have hexponent' := exponentSpan_congr hexponent hd fun hnil => by
    subst hnil
    refine eq_false_of_ne_true fun h => ?_
    obtain ⟨c, hc, hletter⟩ := List.any_eq_true.mp (he h)
    simp only [List.append_nil, List.mem_append] at hc
    have hc : isNumeric c := by
      obtain (hc | hc) | hc := hc
      · exact isNumeric_signSpan hs c hc
      · exact isNumeric_digitSpan hwhole c hc
      · exact hnumeric c hc
    simp [not_isExponentLetter hc] at hletter
  have hdigit : startsDigit (exponent ++ rest') = false ∧
      (startsFraction (exponent ++ rest') → startsFraction cs₃) := by
    obtain ⟨rfl, rfl, -⟩ | ⟨e, ds, rfl, hletter, -⟩ := hletter
    · exact ⟨hd, hf⟩
    · simp only [isExponentLetter, Bool.or_eq_true, beq_iff_eq] at hletter
      rcases hletter with rfl | rfl <;> exact ⟨rfl, fun h => by cases h⟩
  have hfraction' := fractionSpan_congr hfraction hdigit.1 hdigit.2
  have hdigit' : startsDigit (fraction ++ (exponent ++ rest')) = false := by
    obtain rfl | ⟨ds, rfl⟩ := hpoint
    · exact hdigit.1
    · rfl
  have hwhole' := digitSpan_congr hwhole hdigit'
  have hsign : signSpan (sign ++ (whole ++ (fraction ++ (exponent ++ rest')))) =
      (sign, whole ++ (fraction ++ (exponent ++ rest'))) := by
    refine signSpan_congr hs ?_
    rintro rfl
    rw [← hcs₁, ← hcs₂, ← hcs₃]
    simp only [List.head?_append]
    cases whole <;> cases fraction <;> cases exponent <;> simp_all
  simp only [numeral, List.append_assoc, hsign, hwhole', hfraction', hexponent']

/-! ### Lexemes -/

variable {front taken : List Char} {content : List Char} {t : Token} {token : String → Token}
  {mark : Char}

theorem of_decoded {token : String → Token} {written : List Char}
    (h : Lexeme.decoded token written taken rest = ⟨.ok t, w, rest'⟩) :
    rest' = rest ∧ w = taken ∧ ∃ name, unescape .nothing written = .ok name ∧ t = token (String.ofList name) := by
  unfold Lexeme.decoded at h
  split at h
  case h_1 name hname =>
    cases h
    exact ⟨rfl, rfl, name, hname, rfl⟩
  case h_2 => cases h

theorem decoded_congr {written : List Char}
    (h : Lexeme.decoded token written taken rest = ⟨.ok t, w, ds⟩) :
    Lexeme.decoded token written taken rest' = ⟨.ok t, w, rest'⟩ := by
  unfold Lexeme.decoded at h ⊢
  split at h
  · cases h
    rfl
  · cases h

theorem unit_of_ne (h : cs.head? ≠ some '%') : unit multibyte cs =
    if startsIdentifier multibyte cs then
      ((unescape .nothing (nameSpan multibyte .nothing cs).1).map fun word =>
        some (Text.lower (String.ofList word)), nameSpan multibyte .nothing cs)
    else (.ok none, [], cs) := by
  unfold unit
  split
  · exact absurd rfl h
  · rfl

theorem unit_congr {written : Except LexicalFault (Option String)}
    (h : unit multibyte cs = (written, w, rest)) (hl : ContinuesLess multibyte rest rest') :
    unit multibyte (w ++ rest') = (written, w, rest') ∧
      ContinuesLess multibyte (w ++ rest) (w ++ rest') := by
  by_cases hp : cs.head? = some '%'
  case pos =>
    obtain ⟨cs, rfl⟩ := List.head?_eq_some_iff.mp hp
    cases h
    exact ⟨rfl, (LooksLike.inert (by decide) ..).continuesLess⟩
  case neg =>
    rw [unit_of_ne hp] at h
    by_cases hi : startsIdentifier multibyte cs
    case pos =>
      obtain ⟨w', r, hs⟩ : ∃ w' r, nameSpan multibyte .nothing cs = (w', r) := ⟨_, _, rfl⟩
      rw [if_pos hi, hs] at h
      cases h
      have hi' := startsIdentifier_congr rest' hs hi
      have hp' : (w ++ rest').head? ≠ some '%' := by
        intro he
        obtain ⟨x, he⟩ := List.head?_eq_some_iff.mp he
        rw [he] at hi'
        cases multibyte <;> cases hi'
      refine ⟨?_, continuesLess_nameSpan hs hl⟩
      rw [unit_of_ne hp', if_pos hi', nameSpan_congr hs (fun h => by cases h) hl]
    case neg =>
      rw [if_neg hi] at h
      cases h
      have hp' : rest'.head? ≠ some '%' := fun he => hp (hl.head '%' (by simp) he)
      refine ⟨?_, hl⟩
      rw [List.nil_append, unit_of_ne hp', if_neg fun h => hi (hl.identifier h)]

theorem of_number (h : number multibyte cs = ⟨.ok t, w, rest⟩) :
    ∃ written behind u taken, numeral cs = (written, behind) ∧
      unit multibyte behind = (u, taken, rest) ∧ w = written ++ taken := by
  obtain ⟨written, behind, hn⟩ : ∃ written behind, numeral cs = (written, behind) := ⟨_, _, rfl⟩
  obtain ⟨u, taken, r, hu⟩ : ∃ u taken r, unit multibyte behind = (u, taken, r) := ⟨_, _, _, rfl⟩
  obtain ⟨hw, rfl⟩ : w = written ++ taken ∧ rest = r := by
    simp only [number, hn, hu] at h
    split at h
    · cases (Lexeme.mk.inj h).1
    · split at h
      · cases (Lexeme.mk.inj h).1
      · cases (Lexeme.mk.inj h).1
      · exact ⟨(Lexeme.mk.inj h).2.1.symm, (Lexeme.mk.inj h).2.2.symm⟩
  exact ⟨written, behind, u, taken, hn, hu, hw⟩

-- A number is the same with a unit that is the same and continues no more.
theorem number_unit {written behind behind' taken taken' : List Char}
    {u : Except LexicalFault (Option String)} (h : number multibyte cs = ⟨.ok t, w, rest⟩)
    (hn : numeral cs = (written, behind)) (hne : written ≠ [])
    (hu : unit multibyte behind = (u, taken, rest)) (hl : ContinuesLess multibyte behind behind')
    (hu' : unit multibyte behind' = (u, taken', rest')) :
    number multibyte (written ++ behind') = ⟨.ok t, written ++ taken', rest'⟩ := by
  have hdigit := not_startsDigit_numeral cs
  have hexponent := @hasExponent_of_startsExponent cs
  rw [hn] at hdigit hexponent
  have hdigit' : startsDigit behind' = false :=
    eq_false_of_ne_true fun h => by simp [hl.digit h] at hdigit
  have hnumeral := numeral_congr hn hne hdigit' hl.fraction fun h => hexponent (hl.exponent h)
  simp only [number, hn, hu] at h
  simp only [number, hnumeral, hu']
  split at h
  · cases (Lexeme.mk.inj h).1
  · split at h
    · cases (Lexeme.mk.inj h).1
    · cases (Lexeme.mk.inj h).1
    · simp_all

theorem startsUnsigned_append (h : startsUnsigned (w ++ rest)) (hn : w ≠ []) (hp : w ≠ ['.']) :
    startsUnsigned (w ++ rest') := by
  match w with
  | [c] =>
    have hc : c ≠ '.' := fun hc => hp (by rw [hc])
    rw [List.singleton_append, startsUnsigned_cons hc] at h ⊢
    exact h
  | c :: d :: w =>
    rw [List.cons_append, List.cons_append, startsUnsigned_eq, startsDigit_cons, startsFraction,
      startsDigit_cons] at h ⊢
    exact h

-- Whether a number starts is told by its numeral alone, which has a digit.
theorem startsNumber_append (h : startsNumber (w ++ rest)) (hn : w ≠ [])
    (hd : (Decimal.ofChars? w).isSome) : startsNumber (w ++ rest') := by
  obtain ⟨c, w, rfl⟩ := List.exists_cons_of_ne_nil hn
  rw [List.cons_append, startsNumber] at h ⊢
  split at h
  case isTrue hs =>
    rw [if_pos hs]
    simp only [Bool.or_eq_true, decide_eq_true_eq] at hs
    refine startsUnsigned_append h ?_ ?_
    all_goals
      rintro rfl
      rcases hs with rfl | rfl <;> cases hd
  case isFalse hs =>
    rw [if_neg hs]
    refine startsUnsigned_append h (List.cons_ne_nil _ _) ?_
    intro he
    obtain ⟨rfl, rfl⟩ := List.cons.inj he
    cases hd

theorem startsNumber_numeral {written behind : List Char} (behind' : List Char)
    (h : number multibyte (c :: cs) = ⟨.ok t, w, rest⟩)
    (hn : numeral (c :: cs) = (written, behind)) (hs : startsNumber (c :: cs)) :
    startsNumber (written ++ behind') := by
  have hcs := numeral_append (c :: cs)
  rw [hn] at hcs
  have hd : (Decimal.ofChars? written).isSome := by
    simp only [number, hn] at h
    split at h
    case h_1 => cases (Lexeme.mk.inj h).1
    case h_2 d hd => rw [hd]; rfl
  exact startsNumber_append (hcs.symm ▸ hs) (by simpa [hn] using numeral_ne_nil hs) hd

theorem number_congr (h : number multibyte (c :: cs) = ⟨.ok t, c :: w, rest⟩)
    (hs : startsNumber (c :: cs)) (hl : ContinuesLess multibyte rest rest') :
    number multibyte (c :: (w ++ rest')) = ⟨.ok t, c :: w, rest'⟩ ∧
      startsNumber (c :: (w ++ rest')) := by
  obtain ⟨written, behind, u, taken, hn, hu, hw⟩ := of_number h
  obtain ⟨hunit, hlook⟩ := unit_congr hu hl
  have hbehind := unit_append multibyte behind
  rw [hu] at hbehind
  rw [hbehind] at hlook
  have hne : written ≠ [] := by simpa [hn] using numeral_ne_nil hs
  rw [← List.cons_append, hw, List.append_assoc]
  exact ⟨number_unit h hn hne hu hlook hunit, startsNumber_numeral _ h hn hs⟩

theorem nameSpan_of_named (h : named multibyte token mark cs = ⟨.ok t, mark :: w, rest⟩) :
    nameSpan multibyte .nothing cs = (w, rest) := by
  obtain ⟨w', r, hs⟩ : ∃ w' r, nameSpan multibyte .nothing cs = (w', r) := ⟨_, _, rfl⟩
  have htaken := Lexeme.decoded_taken token w' (mark :: w') r
  have hrest := Lexeme.decoded_rest token w' (mark :: w') r
  simp only [named, hs] at h
  rw [h] at htaken hrest
  rw [hs, (List.cons.inj htaken).2, ← hrest]

theorem named_congr (h : named multibyte token mark cs = ⟨.ok t, mark :: w, rest⟩)
    (hl : ContinuesLess multibyte rest rest') :
    named multibyte token mark (w ++ rest') = ⟨.ok t, mark :: w, rest'⟩ := by
  have hs := nameSpan_of_named h
  simp only [named, hs] at h
  simp only [named, nameSpan_congr hs (fun h => by cases h) hl]
  exact decoded_congr h

-- Whether the end of a token is part of it, so that what is behind does not matter.
def Closes (read : List Char → Lexeme) : Prop :=
  ∀ {cs t taken rest}, read cs = ⟨.ok t, taken, rest⟩ →
    ∃ w, cs = w ++ rest ∧ ∀ rest', read (w ++ rest') = ⟨.ok t, taken, rest'⟩

theorem stringSpan_of_quoted (h : quoted quote cs = (some content, taken, rest)) :
    stringSpan quote .nothing cs = (content, quote :: rest) := by
  obtain ⟨w, r, hs⟩ : ∃ w r, stringSpan quote .nothing cs = (w, r) := ⟨_, _, rfl⟩
  simp only [quoted, hs] at h
  cases r
  case nil => cases h
  case cons c r =>
    by_cases hc : c = quote
    case neg =>
      simp only [hc, if_false] at h
      cases h
    case pos =>
      subst hc
      simp only [if_true] at h
      cases h
      exact hs

theorem quoted_of_stringSpan (h : stringSpan quote .nothing cs = (content, quote :: rest)) :
    quoted quote cs = (some content, quote :: (content ++ [quote]), rest) := by
  simp only [quoted, h, if_true]

theorem closes_string : Closes (string quote) := by
  intro cs t taken rest h
  unfold string at h
  split at h
  case h_1 content taken' r hq =>
    have hspan := stringSpan_of_quoted hq
    have happend := stringSpan_append quote .nothing cs
    rw [quoted_of_stringSpan hspan] at hq
    rw [hspan] at happend
    obtain rfl : r = rest := by
      have := Lexeme.decoded_rest .string content taken' r
      rw [h] at this
      exact this.symm
    refine ⟨content ++ [quote], by simp [← happend], fun rest' => ?_⟩
    rw [List.append_assoc, List.singleton_append]
    have hspan' : stringSpan quote .nothing (content ++ quote :: rest') =
        (content, quote :: rest') := stringSpan_congr hspan
    simp only [string, quoted_of_stringSpan hspan']
    rw [(Prod.mk.inj (Prod.mk.inj hq).2).1]
    exact decoded_congr h
  case h_2 => cases h

/-! ### Targets -/

-- The text of an url behind the parenthesis that opens it.
inductive UrlText (s : String) : List Char → Prop
  | bare {front target back name : List Char} (hf : ∀ c ∈ front, Text.isBlank c)
    (hb : ∀ c ∈ back, Text.isBlank c) (hn : target = [] → back = [])
    (ht : ∀ rest, targetSpan .nothing (target ++ (back ++ ')' :: rest)) =
      (target, back ++ ')' :: rest))
    (hname : unescape .nothing target = .ok name) (hs : s = String.ofList name) :
    UrlText s (front ++ (target ++ (back ++ [')'])))
  | quoted {quote : Char} {front content back name : List Char}
    (hf : ∀ c ∈ front, Text.isBlank c) (hb : ∀ c ∈ back, Text.isBlank c)
    (hq : Selector.isQuote quote)
    (hc : ∀ rest, stringSpan quote .nothing (content ++ quote :: rest) = (content, quote :: rest))
    (hname : unescape .nothing content = .ok name) (hs : s = String.ofList name) :
    UrlText s (front ++ quote :: (content ++ quote :: (back ++ [')'])))

theorem blankSpan_append_cons (hw : ∀ c ∈ w, Text.isBlank c) (hc : Text.isBlank c = false) :
    blankSpan (w ++ c :: rest) = (w, c :: rest) := by
  simp [blankSpan, List.takeWhile_append_of_pos hw, List.dropWhile_append_of_pos hw, hc]

theorem of_blankSpan (h : blankSpan cs = (w, rest)) :
    cs = w ++ rest ∧ (∀ c ∈ w, Text.isBlank c) ∧ startsBlank rest = false := by
  obtain ⟨rfl, rfl⟩ := Prod.mk.inj h
  refine ⟨List.takeWhile_append_dropWhile.symm, List.all_eq_true.mp List.all_takeWhile, ?_⟩
  have := List.head?_dropWhile_not Text.isBlank cs
  cases hd : cs.dropWhile Text.isBlank
  case nil => rfl
  case cons => simpa [hd, startsBlank] using this

theorem urlText_of_quotedUrl {blanks : List Char} (hf : ∀ c ∈ blanks, Text.isBlank c)
    (hq : Selector.isQuote quote) (h : quotedUrl front quote cs = ⟨.ok t, taken, rest⟩) :
    ∃ s w, t = .url s ∧ cs = w ++ rest ∧ UrlText s (blanks ++ quote :: w) := by
  unfold quotedUrl at h
  split at h
  case h_1 => cases h
  case h_2 content taken' behind hquoted =>
    have hspan := stringSpan_of_quoted hquoted
    have happend := stringSpan_append quote .nothing cs
    rw [hspan] at happend
    obtain ⟨back, r, hb⟩ : ∃ back r, blankSpan behind = (back, r) := ⟨_, _, rfl⟩
    obtain ⟨rfl, hback, -⟩ := of_blankSpan hb
    simp only [hb] at h
    cases r
    case nil => cases h
    case cons c r =>
      by_cases hc : c = ')'
      case neg =>
        simp only [hc, if_false] at h
        cases h
      case pos =>
        subst hc
        simp only [if_true] at h
        obtain ⟨rfl, -, name, hname, rfl⟩ := of_decoded h
        exact ⟨_, content ++ quote :: (back ++ [')']), rfl, by simp [← happend],
          .quoted hf hback hq (fun _ => stringSpan_congr hspan) hname rfl⟩

-- A target ends at white space or at the parenthesis.
theorem targetSpan_back {target back back' : List Char} (hb : ∀ c ∈ back, Text.isBlank c)
    (hb' : ∀ c ∈ back', Text.isBlank c) (hn : back = [] → back' = [])
    (ht : targetSpan .nothing (target ++ (back ++ ')' :: rest)) = (target, back ++ ')' :: rest))
    (rest' : List Char) : targetSpan .nothing (target ++ (back' ++ ')' :: rest')) =
      (target, back' ++ ')' :: rest') := by
  have hends {back : List Char} (hb : ∀ c ∈ back, Text.isBlank c) (rest : List Char) :
      ∃ e es, back ++ ')' :: rest = e :: es ∧ endsTarget e ∧ (Text.isBlank e ↔ back ≠ []) := by
    cases back
    case nil => exact ⟨')', rest, rfl, rfl, by decide⟩
    case cons e es =>
      have he := hb e List.mem_cons_self
      exact ⟨e, es ++ ')' :: rest, rfl, by simp [endsTarget, he], by simp [he]⟩
  obtain ⟨e, es, hes, he, hblank⟩ := hends hb rest
  obtain ⟨e', es', hes', he', hblank'⟩ := hends hb' rest'
  rw [hes] at ht
  rw [hes']
  exact targetSpan_congr ht he he' fun h => hblank.mpr fun hnil => hblank'.mp h (hn hnil)

theorem urlText_of_bareUrl {blanks : List Char} (hf : ∀ c ∈ blanks, Text.isBlank c)
    (hs : startsBlank cs = false) (h : bareUrl front cs = ⟨.ok t, taken, rest⟩) :
    ∃ s w, t = .url s ∧ cs = w ++ rest ∧ UrlText s (blanks ++ w) := by
  obtain ⟨target, behind, ht⟩ : ∃ target behind, targetSpan .nothing cs = (target, behind) :=
    ⟨_, _, rfl⟩
  obtain ⟨back, r, hb⟩ : ∃ back r, blankSpan behind = (back, r) := ⟨_, _, rfl⟩
  have htarget := targetSpan_append .nothing cs
  rw [ht] at htarget
  subst htarget
  obtain ⟨rfl, hback, -⟩ := of_blankSpan hb
  simp only [bareUrl, ht, hb] at h
  split at h
  case h_1 => cases h
  case h_2 r hne =>
    obtain ⟨rfl, -, name, hname, rfl⟩ := of_decoded h
    have hnil : target = [] → back = [] := by
      rintro rfl
      cases back
      case nil => rfl
      case cons e es => simp [startsBlank, hback e] at hs
    exact ⟨_, target ++ (back ++ [')']), rfl, by simp,
      .bare hf hback hnil (targetSpan_back hback hback id ht) hname rfl⟩
  case h_3 => cases h
  case h_4 => cases h

theorem urlText_of_url (h : url front cs = ⟨.ok t, taken, rest⟩) :
    ∃ s w, t = .url s ∧ cs = w ++ rest ∧ UrlText s w := by
  obtain ⟨blanks, r, hb⟩ : ∃ blanks r, blankSpan cs = (blanks, r) := ⟨_, _, rfl⟩
  obtain ⟨rfl, hblanks, hstarts⟩ := of_blankSpan hb
  simp only [url, hb] at h
  cases r
  case nil => cases h
  case cons c r =>
    by_cases hq : Selector.isQuote c
    case pos =>
      simp only [hq, if_true] at h
      obtain ⟨s, w, rfl, rfl, hw⟩ := urlText_of_quotedUrl hblanks hq h
      exact ⟨s, blanks ++ c :: w, rfl, by simp, hw⟩
    case neg =>
      simp only [hq, Bool.false_eq_true, if_false] at h
      obtain ⟨s, w, rfl, hcs, hw⟩ := urlText_of_bareUrl hblanks hstarts h
      exact ⟨s, blanks ++ w, rfl, by simp [hcs], hw⟩

theorem not_endsTarget_of_targetSpan (h : targetSpan .nothing (c :: cs) = (c :: w, rest)) :
    endsTarget c = false := by
  refine eq_false_of_ne_true fun hc => ?_
  rw [targetSpan] at h
  simp [Pending.take?, hc] at h

-- A target begins with neither white space nor a quote.
theorem exists_cons_target {target back : List Char} (hn : target = [] → back = [])
    (ht : targetSpan .nothing (target ++ (back ++ ')' :: rest)) = (target, back ++ ')' :: rest)) :
    ∃ e es, target ++ (back ++ ')' :: rest) = e :: es ∧ Text.isBlank e = false ∧
      Selector.isQuote e = false := by
  cases target
  case nil => exact ⟨')', rest, by simp [hn rfl], by decide, by decide⟩
  case cons e es =>
    have hends := not_endsTarget_of_targetSpan ht
    simp only [endsTarget, Bool.or_eq_false_iff] at hends
    exact ⟨e, es ++ (back ++ ')' :: rest), rfl, hends.1.1.2, hends.1.2⟩

theorem url_of_urlText {s : String} (h : UrlText s w) (front rest : List Char) :
    ∃ taken, url front (w ++ rest) = ⟨.ok (.url s), taken, rest⟩ := by
  cases h
  case bare before target back name hf hb hn ht hname hs =>
    obtain ⟨e, es, he, hblank, hquote⟩ := exists_cons_target hn (ht rest)
    have hspan := ht rest
    have hback : blankSpan (back ++ ')' :: rest) = (back, ')' :: rest) :=
      blankSpan_append_cons hb (by decide)
    have hbare : bareUrl (front ++ before) (e :: es) =
        ⟨.ok (.url s), front ++ before ++ target ++ back ++ [')'], rest⟩ := by
      rw [← he]
      simp only [bareUrl, hspan, hback, Lexeme.decoded, hname, ← hs]
      cases back <;> rfl
    refine ⟨front ++ before ++ target ++ back ++ [')'], ?_⟩
    rw [← hbare]
    simp only [List.append_assoc, List.singleton_append, he]
    simp only [url, blankSpan_append_cons hf hblank, hquote, Bool.false_eq_true, if_false]
  case quoted quote before content back name hf hb hq hc hname hs =>
    have hblank : Text.isBlank quote = false := by
      simp only [Selector.isQuote, Bool.or_eq_true, beq_iff_eq] at hq
      rcases hq with rfl | rfl <;> decide
    have hback : blankSpan (back ++ ')' :: rest) = (back, ')' :: rest) :=
      blankSpan_append_cons hb (by decide)
    have hurl : quotedUrl (front ++ before) quote (content ++ quote :: (back ++ ')' :: rest)) =
        ⟨.ok (.url s), front ++ before ++ quote :: (content ++ [quote]) ++ back ++ [')'], rest⟩ := by
      simp only [quotedUrl, quoted_of_stringSpan (hc _), hback, if_true, Lexeme.decoded, hname, ← hs]
    refine ⟨front ++ before ++ quote :: (content ++ [quote]) ++ back ++ [')'], ?_⟩
    rw [← hurl]
    simp only [List.append_assoc, List.cons_append, List.nil_append]
    simp only [url, blankSpan_append_cons hf hblank, hq, if_true]

theorem closes_url : Closes (url front) := by
  intro cs t taken rest h
  obtain ⟨s, w, rfl, rfl, hw⟩ := urlText_of_url h
  refine ⟨w, rfl, fun rest' => ?_⟩
  obtain ⟨taken', h'⟩ := url_of_urlText hw front rest'
  have hsame {taken rest : List Char} (h : url front (w ++ rest) = ⟨.ok (.url s), taken, rest⟩) :
      taken = front ++ w := by
    have happend := url_append front (w ++ rest)
    rwa [h, ← List.append_assoc, List.append_cancel_right_eq] at happend
  rw [h', hsame h, hsame h']

theorem identifierLike_of_ne {written : List Char}
    (hs : nameSpan multibyte .nothing cs = (written, rest)) (hr : rest.head? ≠ some '(') :
    identifierLike multibyte cs = .decoded .identifier written written rest := by
  simp only [identifierLike, hs]
  split
  · exact absurd rfl hr
  · rfl

theorem identifierLike_congr (h : identifierLike multibyte cs = ⟨.ok t, w, rest⟩)
    (hi : startsIdentifier multibyte cs) (hl : ContinuesLess multibyte rest rest') :
    identifierLike multibyte (w ++ rest') = ⟨.ok t, w, rest'⟩ ∧
      startsIdentifier multibyte (w ++ rest') := by
  obtain ⟨written, r, hs⟩ : ∃ written r, nameSpan multibyte .nothing cs = (written, r) :=
    ⟨_, _, rfl⟩
  by_cases hr : r.head? = some '('
  case pos =>
    obtain ⟨r, rfl⟩ := List.head?_eq_some_iff.mp hr
    have hlook (ds : List Char) := (@LooksLike.inert multibyte '(' (by decide) r ds).continuesLess
    have hspan (ds : List Char) := nameSpan_congr hs (fun h => by cases h) (hlook ds)
    have hi' (ds : List Char) := startsIdentifier_congr ds hs hi
    simp only [identifierLike, hs] at h
    split at h
    case h_1 => cases h
    case h_2 word hword =>
      split at h
      case isTrue hu =>
        have happend := url_append (written ++ ['(']) r
        obtain ⟨w', rfl, hw⟩ := closes_url h
        rw [h] at happend
        obtain rfl : w = written ++ ['('] ++ w' := by
          rwa [← List.append_assoc, List.append_cancel_right_eq] at happend
        simp only [List.append_assoc, List.cons_append, List.nil_append] at hw ⊢
        refine ⟨?_, hi' _⟩
        simp only [identifierLike, hspan, hword, hu, if_true, hw]
      case isFalse hu =>
        cases h
        rw [List.append_assoc, List.singleton_append]
        refine ⟨?_, hi' _⟩
        simp only [identifierLike, hspan, hword, hu, if_false, Bool.false_eq_true]
  case neg =>
    rw [identifierLike_of_ne hs hr] at h
    obtain ⟨rfl, rfl⟩ : w = written ∧ rest = r := by
      have htaken := Lexeme.decoded_taken .identifier written written r
      have hrest := Lexeme.decoded_rest .identifier written written r
      rw [h] at htaken hrest
      exact ⟨htaken, hrest⟩
    have hr' : rest'.head? ≠ some '(' := fun he => hr (hl.head '(' (by simp) he)
    refine ⟨?_, startsIdentifier_congr rest' hs hi⟩
    rw [identifierLike_of_ne (nameSpan_congr hs (fun h => by cases h) hl) hr']
    exact decoded_congr h

-- A token is read the same in front of a text that continues it no more than the one behind it.
theorem lexeme_congr (h : lexeme multibyte c cs = ⟨.ok t, c :: w, rest⟩)
    (hl : ContinuesLess multibyte rest rest') :
    lexeme multibyte c (w ++ rest') = ⟨.ok t, c :: w, rest'⟩ := by
  have hcs := lexeme_append multibyte c cs
  rw [h] at hcs
  replace hcs : w ++ rest = cs := (List.cons.inj hcs).2
  revert h
  fun_cases lexeme multibyte c cs
  case case1 hq =>
    intro h
    obtain ⟨w', hw, hs⟩ := closes_string h
    obtain rfl : w = w' := by rwa [hw, List.append_cancel_right_eq] at hcs
    rw [lexeme, if_pos hq]
    exact hs rest'
  case case2 hq hc =>
    intro h
    simp only [Bool.and_eq_true, decide_eq_true_eq] at hc
    obtain ⟨rfl, hname⟩ := hc
    have hname' := startsName_congr rest' (nameSpan_of_named h) hname
    simp only [lexeme, hq, hname', decide_true, Bool.and_self, if_true, Bool.false_eq_true,
      if_false]
    exact named_congr h hl
  case case3 hq _ hc =>
    intro h
    simp only [Bool.and_eq_true, decide_eq_true_eq] at hc
    obtain ⟨rfl, hi⟩ := hc
    have hi' := startsIdentifier_congr rest' (nameSpan_of_named h) hi
    have hhash : ('@' = '#') = False := by decide
    simp only [lexeme, hq, hi', hhash, decide_false, decide_true, Bool.and_self, Bool.false_and,
      if_true, Bool.false_eq_true, if_false]
    exact named_congr h hl
  case case4 hq _ _ hs =>
    intro h
    obtain ⟨hnumber, hs'⟩ := number_congr h hs hl
    have hhash : c ≠ '#' := by rintro rfl; cases hs
    have hat : c ≠ '@' := by rintro rfl; cases hs
    simp only [lexeme, hq, hhash, hat, hs', decide_false, Bool.false_and, if_true,
      Bool.false_eq_true, if_false]
    exact hnumber
  case case5 hi =>
    intro h
    obtain ⟨hidentifier, hi'⟩ := identifierLike_congr h hi hl
    exact (lexeme_of_startsIdentifier hi').trans hidentifier
  case case6 => exact fun h => by cases h
  case case7 hq hhash hat hs hi hb ha =>
    intro h
    cases h
    have hhash' : (c = '#' && startsName multibyte rest') = false := by
      by_cases hc : c = '#'
      · exact eq_false_of_ne_true fun h => hhash (by simp_all [hl.name])
      · simp [hc]
    have hat' : (c = '@' && startsIdentifier multibyte rest') = false := by
      by_cases hc : c = '@'
      · exact eq_false_of_ne_true fun h => hat (by simp_all [hl.identifier])
      · simp [hc]
    have hs' : startsNumber (c :: rest') = false := eq_false_of_ne_true fun h => hs (hl.number h)
    have hi' : startsIdentifier multibyte (c :: rest') = false :=
      eq_false_of_ne_true fun h => hi ((hl.cons hb).identifier h)
    simp only [List.nil_append, lexeme, hq, hhash', hat', hs', hi', hb, ha, if_true,
      Bool.false_eq_true, if_false]
  case case8 => exact fun h => by cases h

end Stylesheet.Lexing
