import Stylesheet.Proofs.Token.Lookahead
import Stylesheet.Proofs.Token.Numbers
/-!
Tokens as they are written, whatever they were taken from. The text of a token is read as the token
again, NUL apart, in front of a text that goes on as the text behind the token did (`Echoes`). Main
statements: `Lexing.lexes_text`, `Lexing.echoes_of_lexes`, `Lexing.lexes_trimmed`.
-/

namespace Stylesheet

/-! ### NUL -/

namespace Text

-- What is written for a character, if it is written as one.
def withoutNul (c : Char) : Char :=
  if c.toNat = 0 then '\uFFFD' else c

theorem toNat_withoutNul (c : Char) : (withoutNul c).toNat ≠ 0 := by
  unfold withoutNul
  split
  · decide
  · assumption

namespace Escaped

variable {c : Char} {cs : List Char}

theorem withoutNul_cases (c : Char) : c.toNat = 0 ∧ withoutNul c = '\uFFFD' ∨ withoutNul c = c := by
  by_cases hc : c.toNat = 0 <;> simp [withoutNul, hc]

theorem nameChar_withoutNul : nameChar (withoutNul c) = nameChar c := by
  obtain ⟨hc, h⟩ | h := withoutNul_cases c
  · rw [h, nameChar, nameChar, if_pos hc]
    decide
  · rw [h]

theorem stringChar_withoutNul : stringChar (withoutNul c) = stringChar c := by
  obtain ⟨hc, h⟩ | h := withoutNul_cases c
  · rw [h, stringChar, stringChar, if_pos hc]
    decide
  · rw [h]

theorem withoutNul_eq_hyphen : withoutNul c = '-' ↔ c = '-' := by
  obtain ⟨hc, h⟩ | h := withoutNul_cases c
  · rw [h]
    refine iff_of_false (by decide) ?_
    rintro rfl
    cases hc
  · rw [h]

theorem nameChars_withoutNul (cs : List Char) : nameChars (cs.map withoutNul) = nameChars cs := by
  rw [nameChars, nameChars, List.flatMap_map]
  exact congrArg (cs.flatMap ·) (funext fun _ => nameChar_withoutNul)

theorem leadingChars_withoutNul (cs : List Char) :
    leadingChars (cs.map withoutNul) = leadingChars cs := by
  cases cs
  case nil => rfl
  case cons c cs =>
    rw [List.map_cons, leadingChars, leadingChars, nameChars_withoutNul, nameChar_withoutNul]
    obtain ⟨hc, h⟩ | h := withoutNul_cases c
    · obtain rfl : c = Char.ofNat 0 := by rw [← hc, Char.ofNat_toNat]
      rw [h]
      rfl
    · rw [h]

theorem identifierChars_withoutNul (cs : List Char) :
    identifierChars (cs.map withoutNul) = identifierChars cs := by
  have hyphen : withoutNul '-' = '-' := by decide
  fun_cases identifierChars cs
  case case1 cs =>
    simp only [List.map_cons, hyphen, identifierChars, nameChars_withoutNul]
  case case2 => decide
  case case3 cs hn hm =>
    cases cs
    case nil => exact absurd rfl hm
    case cons c cs =>
      have hc : c ≠ '-' := by
        rintro rfl
        exact hn _ rfl
      rw [List.map_cons, List.map_cons, hyphen, identifierChars, ← leadingChars_withoutNul (c :: cs)]
      · rfl
      · exact fun rest h => hc (withoutNul_eq_hyphen.mp (List.cons.inj h).1)
      · exact fun h => by cases h
  case case4 hn₁ hn₂ hn₃ =>
    cases cs
    case nil => rfl
    case cons c cs =>
      have hc : c ≠ '-' := by
        rintro rfl
        exact hn₃ _ rfl
      rw [identifierChars, leadingChars_withoutNul]
      all_goals
        intros
        exact hc (withoutNul_eq_hyphen.mp (List.cons.inj (by assumption)).1)

end Escaped
end Text

namespace Token

-- A token as it is read back: nothing can be written that is read as NUL.
def withoutNul : Token → Token
  | identifier name => identifier (clean name)
  | function name => function (clean name)
  | atKeyword name => atKeyword (clean name)
  | hash name => hash (clean name)
  | string content => string (clean content)
  | url target => url (clean target)
  | t => t
where
  clean (s : String) : String :=
    String.ofList (s.toList.map Text.withoutNul)

variable {t : Token} {cs : List Char}

theorem toList_clean (s : String) : (withoutNul.clean s).toList = s.toList.map Text.withoutNul := by
  simp [withoutNul.clean]

theorem text_withoutNul (t : Token) : t.withoutNul.text = t.text := by
  have hname (s : String) : Text.Escaped.identifier (withoutNul.clean s) = Text.Escaped.identifier s := by
    rw [Text.Escaped.identifier, toList_clean, Text.Escaped.identifierChars_withoutNul]
    rfl
  have hhash (s : String) : Text.Escaped.name (withoutNul.clean s) = Text.Escaped.name s := by
    rw [Text.Escaped.name, toList_clean, Text.Escaped.nameChars_withoutNul]
    rfl
  have hquoted (s : String) : Text.Escaped.quoted (withoutNul.clean s) = Text.Escaped.quoted s := by
    rw [Text.Escaped.quoted, Text.Escaped.quotedChars, toList_clean, List.flatMap_map]
    simp only [Text.Escaped.stringChar_withoutNul]
    rfl
  cases t <;> simp only [withoutNul, text, hname, hhash, hquoted]

end Token

namespace Lexing

variable {multibyte : Bool} {c d : Char} {cs ds rest rest' w taken : List Char} {t : Token}

/-! ### What a token was taken from -/

-- What a token says of the text that it is taken off, and of the text behind it.
def Reads (multibyte : Bool) (c : Char) (cs rest : List Char) : Token → Prop
  | .string _ => Selector.isQuote c
  | .url _ => startsIdentifier multibyte (c :: cs)
  | .identifier name => startsIdentifier multibyte (c :: cs) ∧ name.toList ≠ [] ∧
      startsName multibyte rest = false ∧ rest.head? ≠ some '('
  | .function name => startsIdentifier multibyte (c :: cs) ∧ name.toList ≠ [] ∧
      Text.sameWord name "url" = false
  | .atKeyword name => c = '@' ∧ name.toList ≠ [] ∧ startsName multibyte rest = false
  | .hash name => c = '#' ∧ name.toList ≠ [] ∧ startsName multibyte rest = false
  | .number x u written => startsNumber (c :: cs) ∧ ∃ behind taken d,
      numeral (c :: cs) = (written.toList, behind) ∧
      Decimal.ofChars? written.toList = some d ∧ d.toDouble? = some x ∧
      unit multibyte behind = (.ok u, taken, rest)
  | .whitespace => False
  | t => t = single c ∧ cs = rest ∧ isSymbol c ∧ (c = '#' → startsName multibyte cs = false) ∧
      (c = '@' → startsIdentifier multibyte cs = false) ∧ startsNumber (c :: cs) = false ∧
      startsIdentifier multibyte (c :: cs) = false

theorem ne_nil_of_map {x : Except LexicalFault (List Char)} {f : List Char → List Char}
    (h : x.map f = .ok ds) (hf : ∀ cs, f cs ≠ []) : ds ≠ [] := by
  cases x
  case error => cases h
  case ok cs =>
    cases h
    exact hf cs

theorem unescape_hex_ne_nil {left code : Nat} (h : unescape (.hex left code) cs = .ok w) :
    w ≠ [] := by
  induction cs generalizing left code
  case nil =>
    cases h
    exact List.cons_ne_nil _ _
  case cons c cs ih =>
    rw [unescape] at h
    split at h
    · exact ih h
    · split at h
      · exact ne_nil_of_map h fun _ => List.cons_ne_nil _ _
      · split at h <;> exact ne_nil_of_map h fun _ => List.cons_ne_nil _ _

-- No name is empty: an escaped line end is no part of one.
theorem unescape_ne_nil (hs : nameSpan multibyte .nothing cs = (w, rest)) (hn : w ≠ [])
    (h : unescape .nothing w = .ok ds) : ds ≠ [] := by
  cases cs
  case nil =>
    obtain ⟨rfl, -⟩ := Prod.mk.inj hs
    contradiction
  case cons c cs =>
    simp only [nameSpan, Pending.take?] at hs
    split at hs
    case isTrue hc =>
      obtain ⟨rfl, -⟩ := Prod.mk.inj hs
      have hb : c ≠ '\\' := by
        rintro rfl
        cases multibyte <;> cases hc
      rw [unescape, if_neg hb] at h
      exact ne_nil_of_map h fun _ => List.cons_ne_nil _ _
    case isFalse =>
      split at hs
      case isTrue he =>
        obtain ⟨rfl, -⟩ := Prod.mk.inj hs
        obtain rfl : c = '\\' := by
          by_cases hb : c = '\\'
          · exact hb
          · rw [startsEscape_cons hb] at he
            cases he
        cases cs
        case nil => cases he
        case cons d cs =>
          have hd : d ≠ '\n' := by simpa [startsEscape] using he
          simp only [nameSpan, Pending.take?, extend, unescape, hd, if_true, if_false] at h
          split at h
          · exact unescape_hex_ne_nil h
          · exact ne_nil_of_map h fun _ => List.cons_ne_nil _ _
      case isFalse =>
        obtain ⟨rfl, -⟩ := Prod.mk.inj hs
        contradiction

theorem of_named {token : String → Token} (h : named multibyte token c cs = ⟨.ok t, w, rest⟩)
    (hs : startsName multibyte cs) : ∃ name : String, t = token name ∧ name.toList ≠ [] ∧
      startsName multibyte rest = false := by
  obtain ⟨written, r, hspan⟩ : ∃ written r, nameSpan multibyte .nothing cs = (written, r) :=
    ⟨_, _, rfl⟩
  simp only [named, hspan] at h
  obtain ⟨rfl, -, name, hname, rfl⟩ := of_decoded h
  have hstop := not_startsName_nameSpan hspan
  have hn : written ≠ [] := by
    rintro rfl
    have := nameSpan_append multibyte .nothing cs
    rw [hspan, List.nil_append] at this
    rw [← this, hstop] at hs
    cases hs
  exact ⟨_, rfl, by simpa using unescape_ne_nil hspan hn hname, hstop⟩

theorem startsName_of_startsIdentifier (h : startsIdentifier multibyte cs) :
    startsName multibyte cs := by
  cases cs
  case nil => cases h
  case cons c cs =>
    by_cases hc : c = '-'
    · subst hc
      cases multibyte <;> rfl
    · rw [startsIdentifier_cons hc, Bool.or_eq_true] at h
      rw [startsName, Bool.or_eq_true]
      refine h.imp_left fun h => ?_
      simp [isNameChar, h]

theorem startsIdentifier_hyphen_of_startsIdentifier (h : startsIdentifier multibyte cs) :
    startsIdentifier multibyte ('-' :: cs) := by
  cases cs
  case nil => cases h
  case cons c cs =>
    rw [startsIdentifier_hyphen]
    by_cases hc : c = '-'
    · simp [hc]
    · rw [startsIdentifier_cons hc] at h
      rw [Bool.or_assoc, h, Bool.or_true]

theorem reads_identifierLike (h : identifierLike multibyte (c :: cs) = ⟨.ok t, taken, rest⟩)
    (hi : startsIdentifier multibyte (c :: cs)) : Reads multibyte c cs rest t := by
  obtain ⟨written, r, hspan⟩ : ∃ written r, nameSpan multibyte .nothing (c :: cs) = (written, r) :=
    ⟨_, _, rfl⟩
  have hn : written ≠ [] := by
    have := nameSpan_ne_nil hi
    rwa [hspan] at this
  by_cases hr : r.head? = some '('
  case pos =>
    obtain ⟨r, rfl⟩ := List.head?_eq_some_iff.mp hr
    simp only [identifierLike, hspan] at h
    split at h
    case h_1 => cases h
    case h_2 word hword =>
      split at h
      case isTrue =>
        obtain ⟨target, _, rfl, -⟩ := urlText_of_url h
        exact hi
      case isFalse hu =>
        cases h
        exact ⟨hi, by simpa using unescape_ne_nil hspan hn hword, by simpa using hu⟩
  case neg =>
    rw [identifierLike_of_ne hspan hr] at h
    obtain ⟨rfl, -, name, hname, rfl⟩ := of_decoded h
    exact ⟨hi, by simpa using unescape_ne_nil hspan hn hname, not_startsName_nameSpan hspan, hr⟩

theorem reads_number (h : number multibyte (c :: cs) = ⟨.ok t, taken, rest⟩)
    (hs : startsNumber (c :: cs)) : Reads multibyte c cs rest t := by
  obtain ⟨written, behind, hn⟩ : ∃ written behind, numeral (c :: cs) = (written, behind) :=
    ⟨_, _, rfl⟩
  obtain ⟨u, w, r, hu⟩ : ∃ u w r, unit multibyte behind = (u, w, r) := ⟨_, _, _, rfl⟩
  simp only [number, hn, hu] at h
  split at h
  case h_1 => cases h
  case h_2 d hd =>
    split at h
    case h_1 => cases h
    case h_2 => cases h
    case h_3 u x hx =>
      cases h
      exact ⟨hs, behind, w, d, by simpa using hn, by simpa using hd, hx, hu⟩

theorem isSymbol_of_not_starts (ha : Text.isAscii c) (hb : Text.isBlank c = false)
    (hq : Selector.isQuote c = false) (hc : c ≠ '\\') (hs : ¬startsNumber (c :: cs))
    (hi : ¬startsIdentifier multibyte (c :: cs)) : isSymbol c := by
  by_cases hm : c = '-'
  case pos =>
    subst hm
    decide
  case neg =>
    have hstart : isNameStart multibyte c = false := by
      rw [startsIdentifier_cons hm, Bool.or_eq_true, not_or] at hi
      simpa using hi.1
    have hdigit : c.isDigit = false := eq_false_of_ne_true fun hd => by
      have hp : c ≠ '+' ∧ c ≠ '.' := by
        constructor <;> (rintro rfl; cases hd)
      exact hs (by rw [startsNumber_cons hp.1 hm hp.2, hd])
    simp only [isNameStart, Bool.or_eq_false_iff, beq_eq_false_iff_ne] at hstart
    simp [isSymbol, ha, hb, hq, hc, hdigit, hstart]

-- What a lexeme is read as tells what it was read from.
theorem reads_of_lexeme (hb : Text.isBlank c = false)
    (h : lexeme multibyte c cs = ⟨.ok t, taken, rest⟩) : Reads multibyte c cs rest t := by
  revert h
  fun_cases lexeme multibyte c cs
  case case1 hq =>
    intro h
    unfold string at h
    split at h
    case h_1 =>
      obtain ⟨-, -, s, -, rfl⟩ := of_decoded h
      exact hq
    case h_2 => cases h
  case case2 hc =>
    intro h
    simp only [Bool.and_eq_true, decide_eq_true_eq] at hc
    obtain ⟨rfl, hname⟩ := hc
    obtain ⟨name, rfl, hn, hr⟩ := of_named h hname
    exact ⟨rfl, hn, hr⟩
  case case3 hc =>
    intro h
    simp only [Bool.and_eq_true, decide_eq_true_eq] at hc
    obtain ⟨rfl, hi⟩ := hc
    obtain ⟨name, rfl, hn, hr⟩ := of_named h (startsName_of_startsIdentifier hi)
    exact ⟨rfl, hn, hr⟩
  case case4 hs => exact fun h => reads_number h hs
  case case5 hi => exact fun h => reads_identifierLike h hi
  case case6 => exact fun h => by cases h
  case case7 hq hhash hat hs hi hc ha =>
    intro h
    cases h
    have hsymbol := isSymbol_of_not_starts ha hb (by simpa using hq) hc hs hi
    have hreads {t : Token} (ht : t = single c) : Reads multibyte c cs cs t := by
      have hreads : t = single c ∧ cs = cs ∧ isSymbol c ∧
          (c = '#' → startsName multibyte cs = false) ∧
          (c = '@' → startsIdentifier multibyte cs = false) ∧ startsNumber (c :: cs) = false ∧
          startsIdentifier multibyte (c :: cs) = false := by
        refine ⟨ht, rfl, hsymbol, ?_, ?_, by simpa using hs, by simpa using hi⟩
        · rintro rfl
          simpa using hhash
        · rintro rfl
          simpa using hat
      unfold single at ht
      split at ht <;> (subst ht; exact hreads)
    exact hreads rfl
  case case8 => exact fun h => by cases h

/-! ### What goes on behind a token -/

-- However the second text could continue a token in front of it, so could the first.
structure Echoes (multibyte : Bool) (cs ds : List Char) : Prop where
  digit : startsDigit ds → startsDigit cs
  fraction : startsFraction ds → startsFraction cs
  -- A number without a unit is followed by no name, and so by nothing like an exponent.
  exponent : startsExponent ds → startsIdentifier multibyte cs
  name : startsName true ds → startsName multibyte cs
  identifier : startsIdentifier true ds → startsIdentifier multibyte cs
  hyphened : startsIdentifier true ('-' :: ds) → startsIdentifier multibyte ('-' :: cs)
  head : ∀ c ∈ ['(', '%', '*'], ds.head? = some c → cs.head? = some c
  gap : startsGap ds → startsGap cs

-- Characters that continue no token.
def isMute (c : Char) : Bool :=
  !isNameChar true c && !(['\\', '.', '(', '%', '*'].contains c)

namespace Echoes

theorem nil : Echoes multibyte cs [] := by
  constructor
  case head => exact fun _ _ h => by cases h
  all_goals exact fun h => by cases h

theorem mute (hd : isMute d) (hg : startsGap (d :: ds) → startsGap cs) :
    Echoes multibyte cs (d :: ds) := by
  simp only [isMute, isNameChar, Bool.and_eq_true, Bool.not_eq_true', Bool.or_eq_false_iff,
    beq_eq_false_iff_ne, List.contains_eq_mem, decide_eq_false_iff_not, List.mem_cons,
    List.not_mem_nil, or_false, not_or] at hd
  obtain ⟨⟨⟨hs, hdigit⟩, hm⟩, hb, hp, hparen, hpercent, hstar⟩ := hd
  have he : isExponentLetter d = false := by
    simp only [isNameStart, Bool.or_eq_false_iff] at hs
    simp only [isExponentLetter, Bool.or_eq_false_iff, beq_eq_false_iff_ne]
    constructor <;> (rintro rfl; simp at hs)
  have hexponent : startsExponent (d :: ds) = (isExponentLetter d && startsSigned ds) := rfl
  constructor
  case gap => exact hg
  all_goals simp [startsDigit_cons, startsFraction, hexponent, startsName, isNameChar,
    startsIdentifier_cons hm, startsIdentifier_hyphen, startsEscape_cons hb, hs, hdigit, hm, hp,
    he, hparen, hpercent, hstar]

theorem number (h : Echoes multibyte cs ds) :
    startsNumber (c :: ds) → startsNumber (c :: cs) := by
  by_cases hs : (decide (c = '+') || decide (c = '-')) = true
  · simp only [startsNumber, hs, if_true, startsUnsigned_eq, Bool.or_eq_true]
    exact Or.imp h.digit h.fraction
  · simp only [startsNumber, hs, Bool.false_eq_true, if_false, startsUnsigned_eq, startsDigit_cons,
      startsFraction, Bool.or_eq_true, Bool.and_eq_true]
    exact Or.imp_right (And.imp_right h.digit)

end Echoes

theorem isMute_of_isQuote (h : Selector.isQuote c) : isMute c := by
  simp only [Selector.isQuote, Bool.or_eq_true, beq_iff_eq] at h
  rcases h with rfl | rfl <;> decide

theorem echoes_startsNumber (hc : startsNumber (c :: cs)) (hd : startsNumber (c :: ds))
    (hg : startsGap (c :: ds) = false) : Echoes multibyte (c :: cs) (c :: ds) := by
  have hfirst : c.isDigit ∨ c = '+' ∨ c = '-' ∨ c = '.' ∧ startsDigit cs := by
    by_cases hs : c = '+' ∨ c = '-'
    · exact .inr (hs.imp_right .inl)
    · obtain ⟨hp, hm⟩ := not_or.mp hs
      simp only [startsNumber, hp, hm, decide_false, Bool.or_self, Bool.false_eq_true, if_false,
        startsUnsigned_eq, startsDigit_cons, startsFraction, Bool.or_eq_true, Bool.and_eq_true,
        beq_iff_eq] at hc
      exact hc.imp_right fun h => .inr (.inr h)
  have hname : isNameChar true c → isNameChar multibyte c := by
    rcases hfirst with h | rfl | rfl | ⟨rfl, -⟩
    · simp [isNameChar, h]
    · exact fun h => absurd h (by decide)
    · cases multibyte <;> decide
    · exact fun h => absurd h (by decide)
  have hletter : isExponentLetter c = false := not_isExponentLetter (by
    rcases hfirst with h | rfl | rfl | ⟨rfl, -⟩
    · simp [isNumeric, h]
    all_goals decide)
  have hb : c ≠ '\\' := by
    rintro rfl
    simp at hfirst
  have hidentifier : startsIdentifier true (c :: ds) = false := eq_false_of_ne_true fun h => by
    simp [not_startsNumber_of_startsIdentifier h] at hd
  constructor
  case digit => exact id
  case fraction =>
    rcases hfirst with h | rfl | rfl | ⟨rfl, h⟩
    · simp only [startsFraction, Bool.and_eq_true, beq_iff_eq]
      rintro ⟨rfl, -⟩
      cases h
    · exact fun h => by cases h
    · exact fun h => by cases h
    · exact fun _ => h
  case exponent =>
    intro h
    have h : (isExponentLetter c && startsSigned ds) = true := h
    simp [hletter] at h
  case name =>
    simp only [startsName, startsEscape_cons hb, Bool.or_false]
    exact hname
  case identifier => simp [hidentifier]
  case hyphened =>
    simp only [startsIdentifier_hyphen, startsEscape_cons hb, Bool.or_false, Bool.or_eq_true]
    refine Or.imp_right fun h => ?_
    by_cases hm : c = '-'
    · subst hm
      exact absurd h (by decide)
    · rw [startsIdentifier_cons hm, h] at hidentifier
      cases hidentifier
  case head => exact fun _ _ h => h
  case gap => simp [hg]

theorem echoes_startsIdentifier (hc : startsIdentifier multibyte cs)
    (hd : startsIdentifier true ds) (hg : startsGap ds = false) : Echoes multibyte cs ds := by
  cases ds
  case nil => cases hd
  case cons d ds =>
    have hstart := isNameStart_or_of_startsIdentifier hd
    obtain ⟨_, _, _, _, hp, hdigit⟩ := of_isNameStart hstart
    constructor
    case digit => simp [startsDigit_cons, hdigit]
    case fraction => simp [startsFraction, hp]
    case exponent => exact fun _ => hc
    case name => exact fun _ => startsName_of_startsIdentifier hc
    case identifier => exact fun _ => hc
    case hyphened => exact fun _ => startsIdentifier_hyphen_of_startsIdentifier hc
    case head =>
      rintro c hmem ⟨⟩
      exact absurd hstart ((by decide : ∀ c ∈ ['(', '%', '*'],
        ¬(isNameStart true c ∨ c = '-' ∨ c = '\\')) d hmem)
    case gap => simp [hg]

theorem echoes_symbol (hc : isSymbol c) (hg : startsGap (c :: ds) = false)
    (h : isPunctuation c ∨ Echoes multibyte cs ds) : Echoes multibyte (c :: cs) (c :: ds) := by
  simp only [isSymbol, Bool.and_eq_true, Bool.not_eq_true', bne_iff_ne] at hc
  obtain ⟨⟨⟨⟨⟨⟨hascii, hal⟩, hu⟩, hdg⟩, _⟩, hb⟩, hbl⟩ := hc
  have hstart : isNameStart true c = false := by simp [isNameStart, hal, hu, hascii]
  have hletter : isExponentLetter c = false := by
    simp only [isExponentLetter, Bool.or_eq_false_iff, beq_eq_false_iff_ne]
    constructor <;> (rintro rfl; simp at hal)
  constructor
  case digit => exact id
  case fraction =>
    simp only [startsFraction, Bool.and_eq_true, beq_iff_eq]
    rintro ⟨rfl, hd⟩
    exact ⟨rfl, (h.resolve_left (by decide)).digit hd⟩
  case exponent =>
    intro h
    have h : (isExponentLetter c && startsSigned ds) = true := h
    simp [hletter] at h
  case name =>
    simp only [startsName, isNameChar, hstart, hdg, startsEscape_cons hb, Bool.or_false,
      Bool.false_or, beq_iff_eq]
    rintro rfl
    cases multibyte <;> rfl
  case identifier =>
    by_cases hm : c = '-'
    · subst hm
      exact (h.resolve_left (by decide)).hyphened
    · simp [startsIdentifier_cons hm, hstart, startsEscape_cons hb]
  case hyphened =>
    simp only [startsIdentifier_hyphen, hstart, startsEscape_cons hb, Bool.or_false, beq_iff_eq]
    rintro rfl
    rfl
  case head => exact fun _ _ h => h
  case gap => simp [hg]

end Lexing

namespace Token

-- Tokens that nothing behind them can continue.
def isSealed : Token → Bool
  | function _ | string _ | url _ | colon | semicolon | comma | openBrace | closeBrace | openParen
  | closeParen => true
  | delimiter c => Lexing.isPunctuation c
  | _ => false

-- Tokens that continue none in front of them.
def isForeign : Token → Bool
  | string _ | colon | semicolon | comma | slash | openBrace | closeBrace | closeParen => true
  | delimiter c => Lexing.isPunctuation c && Lexing.isMute c
  | _ => false

-- Whether the text of a token is read as the token in front of another text. White space beyond
-- ASCII is not escaped in a name, and nothing is escaped in a unit.
def isReadable (behind : List Char) : Token → Bool
  | identifier name | function name =>
    name.toList.head?.all fun c => Text.isAscii c || !Text.isBlank c
  | number _ (some unit) written =>
    unit == "%" || (unit.toList.all (Lexing.isNameChar true) &&
      Lexing.startsIdentifier true unit.toList &&
      (Lexing.hasExponent written.toList || !Lexing.startsExponent (unit.toList ++ behind)))
  | _ => true

end Token

namespace Lexing

variable {multibyte : Bool} {c d : Char} {cs ds rest rest' w taken : List Char} {t : Token}

theorem Lexes.of_cons {ts : List Token} (h : Lexes ds (t :: ts) rest) (ht : t ≠ .whitespace) :
    ∃ d cs taken behind, ds = d :: cs ∧ startsGap ds = false ∧
      Lexing.lexeme true d cs = ⟨.ok t, taken, behind⟩ ∧ Lexes behind ts rest := by
  generalize hts : t :: ts = us at h
  cases h
  case done => cases hts
  case blank => exact absurd (List.cons.inj hts).1 ht
  case lexeme hg hl h =>
    obtain ⟨rfl, rfl⟩ := List.cons.inj hts
    exact ⟨_, _, _, _, rfl, hg, hl, h⟩

theorem text_single (c : Char) : (single c).text.toList = [c] := by
  unfold single
  split
  case h_9 => simp [Token.text, Char.toString]
  all_goals rfl

theorem single_injective (h : single c = single d) : c = d := by
  have := congrArg (·.text.toList) h
  simpa [text_single] using this

theorem isPunctuation_of_isSealed (h : (single c).isSealed) : isPunctuation c := by
  unfold single at h
  split at h
  case h_4 => cases h
  case h_9 => exact h
  all_goals decide

theorem isBlank_of_not_startsGap (h : startsGap (c :: cs) = false) : Text.isBlank c = false := by
  unfold startsGap at h
  split at h
  · cases h
  · rename_i he
    cases he
    exact h
  · contradiction

-- A text that is read as the same token, in front of a text that goes on as before, goes on as
-- what the token was taken from.
theorem echoes_of_lexes (hg : startsGap (c :: cs) = false)
    (hl : lexeme multibyte c cs = ⟨.ok t, taken, rest⟩)
    (hd : Lexes ds [t.withoutNul] rest')
    (h : t.isSealed ∨ Echoes multibyte rest rest') : Echoes multibyte (c :: cs) ds := by
  have hreads := reads_of_lexeme (isBlank_of_not_startsGap hg) hl
  have ht : t.withoutNul ≠ .whitespace := by
    cases t
    case whitespace => cases hreads
    all_goals exact fun h => by cases h
  obtain ⟨d, ds, taken', behind, rfl, hgap, hl', ⟨⟩⟩ := hd.of_cons ht
  have hreads' := reads_of_lexeme (isBlank_of_not_startsGap hgap) hl'
  cases t
  case whitespace => cases hreads
  case string => exact .mute (isMute_of_isQuote hreads') (by simp [hgap])
  case hash =>
    obtain ⟨rfl, -⟩ := hreads'
    exact .mute (by decide) (by simp [hgap])
  case atKeyword =>
    obtain ⟨rfl, -⟩ := hreads'
    exact .mute (by decide) (by simp [hgap])
  case identifier => exact echoes_startsIdentifier hreads.1 hreads'.1 hgap
  case function => exact echoes_startsIdentifier hreads.1 hreads'.1 hgap
  case url => exact echoes_startsIdentifier hreads hreads' hgap
  case number x u written =>
    obtain ⟨hs, behind, _, _, hn, -⟩ := hreads
    obtain ⟨hs', behind', _, _, hn', -⟩ := hreads'
    have hw := numeral_ne_nil hs
    have happend := numeral_append (c :: cs)
    have happend' := numeral_append (d :: ds)
    rw [hn] at hw happend
    rw [hn'] at happend'
    obtain ⟨e, es, he⟩ := List.exists_cons_of_ne_nil hw
    rw [he] at happend happend'
    obtain ⟨rfl, -⟩ := List.cons.inj happend
    obtain ⟨rfl, -⟩ := List.cons.inj happend'
    exact echoes_startsNumber hs hs' hgap
  all_goals
    obtain ⟨hc, rfl, hsymbol, -⟩ := hreads
    obtain ⟨hsingle, rfl, -⟩ := hreads'
    rw [hc] at h
    obtain rfl : c = d := single_injective (hc.symm.trans hsingle)
    exact echoes_symbol hsymbol hgap (h.imp_left isPunctuation_of_isSealed)

/-! ### Texts of tokens -/

theorem isName_clean {name : String} (hn : name.toList ≠ [])
    (h : name.toList.head?.all fun c => Text.isAscii c || !Text.isBlank c) :
    isName (Token.withoutNul.clean name).toList := by
  rw [Token.toList_clean]
  generalize name.toList = cs at *
  cases cs
  case nil => contradiction
  case cons c cs =>
    have hc : Text.isAscii (Text.withoutNul c) || !Text.isBlank (Text.withoutNul c) := by
      obtain ⟨-, hc⟩ | hc := Text.Escaped.withoutNul_cases c
      · rw [hc]
        decide
      · rw [hc]
        exact h
    simpa [isName, Text.toNat_withoutNul] using hc

theorem toNat_clean_ne_zero (s : String) :
    ∀ c ∈ (Token.withoutNul.clean s).toList, c.toNat ≠ 0 := by
  intro c hc
  rw [Token.toList_clean, List.mem_map] at hc
  obtain ⟨d, -, rfl⟩ := hc
  exact Text.toNat_withoutNul d

theorem sameWord_clean {name : String} (h : Text.sameWord name "url" = false) :
    Text.sameWord (Token.withoutNul.clean name) "url" = false := by
  by_cases hn : ∀ c ∈ name.toList, c.toNat ≠ 0
  case pos =>
    have : name.toList.map Text.withoutNul = name.toList :=
      List.map_congr_left (fun c hc => if_neg (hn c hc)) |>.trans (List.map_id _)
    rwa [Token.withoutNul.clean, this, String.ofList_toList]
  case neg =>
    obtain ⟨c, hc, hnul⟩ : ∃ c ∈ name.toList, c.toNat = 0 := by
      simpa using hn
    have hmem : '\uFFFD' ∈ (Text.lower (Token.withoutNul.clean name)).toList := by
      rw [Text.lower, String.toList_ofList, Token.toList_clean, List.map_map, List.mem_map]
      exact ⟨c, hc, by simp [Text.withoutNul, hnul]⟩
    refine beq_eq_false_iff_ne.mpr fun he => ?_
    rw [he] at hmem
    exact absurd hmem (by decide)

theorem endsName_of_not_startsName (h : startsName true rest = false) : EndsName rest :=
  nameSpan_stop (by simp) (by simp [h]) (by simp)

theorem Echoes.endsName (h : Echoes multibyte cs ds) (hn : startsName multibyte cs = false) :
    EndsName ds :=
  endsName_of_not_startsName (eq_false_of_ne_true fun hs => by simp [h.name hs] at hn)

theorem lexes_hashName {s : String} (hn : s.toList ≠ []) (hnul : ∀ c ∈ s.toList, c.toNat ≠ 0)
    (hr : EndsName rest) :
    Lexes ('#' :: (Text.Escaped.nameChars s.toList ++ rest)) [.hash s] rest := by
  have hspan : nameSpan true .nothing (Text.Escaped.nameChars s.toList ++ rest) =
      (Text.Escaped.nameChars s.toList, rest) := by
    rw [nameSpan_nameChars, show nameSpan true .nothing rest = _ from hr, prepend, List.append_nil]
  have hdec : unescape .nothing (Text.Escaped.nameChars s.toList) = .ok s.toList := by
    have := unescape_nameChars hnul []
    simpa [unescape, Except.map] using this
  have hname : startsName true (Text.Escaped.nameChars s.toList ++ rest) := by
    refine Bool.of_not_eq_false fun h => ?_
    rw [show nameSpan true .nothing _ = _ from endsName_of_not_startsName h] at hspan
    rw [← (Prod.mk.inj hspan).1] at hdec
    exact hn (Except.ok.inj hdec).symm
  have hq : Selector.isQuote '#' = false := by decide
  have hl : lexeme true '#' (Text.Escaped.nameChars s.toList ++ rest) =
      ⟨.ok (.hash s), '#' :: Text.Escaped.nameChars s.toList, rest⟩ := by
    simp [lexeme, hq, hname, named, hspan, Lexeme.decoded, hdec]
  exact .lexeme (startsGap_cons (by decide) (by decide)) hl .done

theorem lexes_atKeyword {s : String} (hn : s.toList ≠ []) (hnul : ∀ c ∈ s.toList, c.toNat ≠ 0)
    (hr : EndsName rest) :
    Lexes ('@' :: (Text.Escaped.identifierChars s.toList ++ rest)) [.atKeyword s] rest := by
  obtain ⟨d, ds, he, -, -, hi⟩ := identifierChars_first hn hnul
  have hspan := @nameSpan_identifierChars s.toList rest hr
  have hdec := unescape_identifierChars hnul
  have hi := hi rest
  rw [← List.cons_append, ← he] at hi
  have hq : Selector.isQuote '@' = false := by decide
  have hhash : ('@' = '#') = False := by decide
  have hl : lexeme true '@' (Text.Escaped.identifierChars s.toList ++ rest) =
      ⟨.ok (.atKeyword s), '@' :: Text.Escaped.identifierChars s.toList, rest⟩ := by
    simp [lexeme, hq, hhash, hi, named, hspan, Lexeme.decoded, hdec]
  exact .lexeme (startsGap_cons (by decide) (by decide)) hl .done

-- What a unit is read from, none included.
theorem of_unit {u : Option String} (h : unit multibyte cs = (.ok u, w, rest)) :
    (u = none ∧ cs = rest ∧ rest.head? ≠ some '%' ∧ startsIdentifier multibyte rest = false) ∨
      u = some "%" ∨
      ∃ s, u = some s ∧ Text.lower s = s ∧ startsName multibyte rest = false := by
  by_cases hp : cs.head? = some '%'
  case pos =>
    obtain ⟨cs, rfl⟩ := List.head?_eq_some_iff.mp hp
    cases h
    exact .inr (.inl rfl)
  case neg =>
    rw [unit_of_ne hp] at h
    split at h
    case isTrue hi =>
      obtain ⟨written, r, hs⟩ : ∃ written r, nameSpan multibyte .nothing cs = (written, r) :=
        ⟨_, _, rfl⟩
      simp only [hs, Prod.mk.injEq] at h
      obtain ⟨hu, -, rfl⟩ := h
      cases hword : unescape .nothing written <;> rw [hword] at hu <;> cases hu
      exact .inr (.inr ⟨_, rfl, Text.lower_lower _, not_startsName_nameSpan hs⟩)
    case isFalse hi =>
      cases h
      exact .inl ⟨rfl, rfl, hp, by simpa using hi⟩

theorem isAscii_of_isNumeric (h : isNumeric c) : Text.isAscii c := by
  simp only [isNumeric, Bool.or_eq_true] at h
  rcases h with hd | hs
  · exact Text.isAscii_of_isDigit hd
  · exact (by decide : ∀ c ∈ ['+', '-', '.'], Text.isAscii c) c (by simpa using hs)

theorem of_startsNumber (h : startsNumber (c :: cs)) : Selector.isQuote c = false ∧ c ≠ '#' ∧
    c ≠ '@' ∧ Text.isBlank c = false ∧ c ≠ '/' := by
  have hnumeric : isNumeric c := by
    by_cases hs : c = '+' ∨ c = '-' ∨ c = '.'
    · rcases hs with rfl | rfl | rfl <;> decide
    · simp only [not_or] at hs
      rw [startsNumber_cons hs.1 hs.2.1 hs.2.2] at h
      simp [isNumeric, h]
  have := Text.of_isAscii (p := fun c => !isNumeric c || (!Selector.isQuote c && c != '#' &&
    c != '@' && !Text.isBlank c && c != '/')) (by decide) (isAscii_of_isNumeric hnumeric)
  simpa [hnumeric, and_assoc] using this

-- A percent sign or a name is the unit that it was; without one, nothing goes on as one.
theorem numeral_unit {written : List Char} (hn : numeral cs = (written, behind))
    (hw : written ≠ []) (hbehind : startsDigit behind = false)
    (hu : unit multibyte behind = (.ok u, w, rest)) (h : Echoes multibyte rest rest')
    (hr : (Token.number x u (String.ofList written)).isReadable rest') :
    numeral (written ++ ((u.getD "").toList ++ rest')) = (written, (u.getD "").toList ++ rest') ∧
      unit true ((u.getD "").toList ++ rest') = (.ok u, (u.getD "").toList, rest') := by
  have hpercent : numeral (written ++ '%' :: rest') = (written, '%' :: rest') :=
    numeral_congr hn hw rfl (fun h => by cases h) fun h => by cases h
  obtain ⟨rfl, rfl, hp, hi⟩ | rfl | ⟨s, rfl, hlower, hstop⟩ := of_unit hu
  · have hdigit : startsDigit rest' = false :=
      eq_false_of_ne_true fun hd => by simp [h.digit hd] at hbehind
    have hexponent : startsExponent rest' = false :=
      eq_false_of_ne_true fun he => by simp [h.exponent he] at hi
    have hidentifier : startsIdentifier true rest' = false :=
      eq_false_of_ne_true fun hi' => by simp [h.identifier hi'] at hi
    refine ⟨numeral_congr hn hw hdigit h.fraction (by simp [hexponent]), ?_⟩
    rw [Option.getD_none, String.toList_empty, List.nil_append,
      unit_of_ne fun he => hp (h.head '%' (by simp) he), hidentifier]
    rfl
  · exact ⟨hpercent, rfl⟩
  · simp only [Token.isReadable, Bool.or_eq_true, beq_iff_eq, Bool.and_eq_true,
      List.all_eq_true, Bool.not_eq_true', String.toList_ofList] at hr
    obtain rfl | ⟨⟨hname, hi⟩, he⟩ := hr
    · exact ⟨hpercent, rfl⟩
    · obtain ⟨c, cs, hc, hdigit, hp, -⟩ := ne_nil_of_startsIdentifier hi
      refine ⟨numeral_congr hn hw ?_ ?_ ?_, unit_of_isNameChar hname hi hlower (h.endsName hstop)⟩
      · simp [hc, startsDigit_cons, hdigit]
      · simp [hc, startsFraction, hp]
      · exact fun h => he.resolve_right (by simpa using h)

theorem lexes_number {x : Double} {u : Option String} {written : String}
    (hs : startsNumber (c :: cs)) {behind : List Char}
    (hn : numeral (c :: cs) = (written.toList, behind)) {d : Decimal}
    (hd : Decimal.ofChars? written.toList = some d) (hx : d.toDouble? = some x)
    (hu : unit multibyte behind = (.ok u, w, rest)) (h : Echoes multibyte rest rest')
    (hr : (Token.number x u written).isReadable rest') :
    Lexes ((Token.number x u written).text.toList ++ rest') [.number x u written] rest' := by
  have hw : written.toList ≠ [] := by
    have := numeral_ne_nil hs
    rwa [hn] at this
  have hbehind := not_startsDigit_numeral (c :: cs)
  rw [hn] at hbehind
  have hunit := numeral_unit (x := x) hn hw hbehind hu h (by rwa [String.ofList_toList])
  have happend := numeral_append (c :: cs)
  rw [hn] at happend
  dsimp only at happend
  rw [← happend] at hs
  have hs' := @startsNumber_append _ ((u.getD "").toList ++ rest') _ hs hw (by rw [hd]; rfl)
  rw [Token.text, String.toList_append, List.append_assoc]
  obtain ⟨e, es, he⟩ := List.exists_cons_of_ne_nil hw
  rw [he, List.cons_append] at hs'
  obtain ⟨hq, hh, ha, hb, hslash⟩ : Selector.isQuote e = false ∧ e ≠ '#' ∧ e ≠ '@' ∧
      Text.isBlank e = false ∧ e ≠ '/' := of_startsNumber hs'
  have hnumber : number true (e :: (es ++ ((u.getD "").toList ++ rest'))) =
      ⟨.ok (.number x u written), e :: (es ++ (u.getD "").toList), rest'⟩ := by
    rw [← List.cons_append, ← he]
    simp [number, hunit, hd, hx, ← List.cons_append, ← he]
  have hl : lexeme true e (es ++ ((u.getD "").toList ++ rest')) =
      ⟨.ok (.number x u written), e :: (es ++ (u.getD "").toList), rest'⟩ := by
    simp [lexeme, hq, hh, ha, hs', hnumber]
  rw [he, List.cons_append]
  exact .lexeme (startsGap_cons hb hslash) hl .done

theorem not_startsGap_symbol (hc : isSymbol c) (hg : startsGap (c :: cs) = false)
    (h : isPunctuation c ∨ Echoes multibyte cs ds) : startsGap (c :: ds) = false := by
  simp only [isSymbol, Bool.and_eq_true, Bool.not_eq_true'] at hc
  by_cases hs : c = '/'
  case neg => exact startsGap_cons hc.2 hs
  case pos =>
    subst hs
    refine eq_false_of_ne_true fun hgap => ?_
    have h := h.resolve_left (by decide)
    have hstar : ds.head? = some '*' := by
      unfold startsGap at hgap
      split at hgap
      · rename_i he
        cases he
        rfl
      · rename_i he
        cases he
        exact absurd hgap (by decide)
      · cases hgap
    obtain ⟨cs, rfl⟩ := List.head?_eq_some_iff.mp (h.head '*' (by simp) hstar)
    cases hg

theorem lexes_symbol_of_echoes (hc : isSymbol c) (hh : c = '#' → startsName multibyte cs = false)
    (ha : c = '@' → startsIdentifier multibyte cs = false) (hn : startsNumber (c :: cs) = false)
    (hi : startsIdentifier multibyte (c :: cs) = false) (hg : startsGap (c :: cs) = false)
    (h : isPunctuation c ∨ Echoes multibyte cs ds) : Lexes (c :: ds) [single c] ds := by
  suffices hl : lexeme true c ds = ⟨.ok (single c), [c], ds⟩ from
    .lexeme (not_startsGap_symbol hc hg h) hl .done
  obtain h | h := h
  case inl => exact (lexeme_punctuation h).2
  case inr =>
    have hsymbol := hc
    simp only [isSymbol, Bool.and_eq_true, Bool.not_eq_true', bne_iff_ne] at hc
    obtain ⟨⟨⟨⟨⟨⟨hascii, hal⟩, hu⟩, _⟩, _⟩, hb⟩, _⟩ := hc
    refine lexeme_symbol hsymbol (fun hc => ?_) (fun hc => ?_) ?_ ?_
    · exact eq_false_of_ne_true fun hs => by simp [h.name hs] at hh; exact hh hc
    · exact eq_false_of_ne_true fun hs => by simp [h.identifier hs] at ha; exact ha hc
    · exact eq_false_of_ne_true fun hs => by simp [h.number hs] at hn
    · by_cases hm : c = '-'
      · subst hm
        exact eq_false_of_ne_true fun hs => by simp [h.hyphened hs] at hi
      · simp [startsIdentifier_cons hm, isNameStart, startsEscape_cons hb, hal, hu, hascii]

-- The text of a token is read as the token.
theorem lexes_text (hg : startsGap (c :: cs) = false)
    (hl : lexeme multibyte c cs = ⟨.ok t, taken, rest⟩) (h : t.isSealed ∨ Echoes multibyte rest ds)
    (hr : t.isReadable ds) : Lexes (t.text.toList ++ ds) [t.withoutNul] ds := by
  have hreads := reads_of_lexeme (isBlank_of_not_startsGap hg) hl
  have hclean {s : String} (hn : s.toList ≠ []) : (Token.withoutNul.clean s).toList ≠ [] := by
    rw [Token.toList_clean]
    simpa using hn
  rw [← Token.text_withoutNul]
  cases t
  case whitespace => cases hreads
  case string content =>
    have := @lexes_string ds _ (toNat_clean_ne_zero content)
    simpa [Token.text, Token.withoutNul, Text.Escaped.quoted] using this
  case url target =>
    have := @lexes_url ds _ (toNat_clean_ne_zero target)
    simpa [Token.text, Token.withoutNul, Text.Escaped.quoted] using this
  case identifier name =>
    obtain ⟨-, hn, hname, hp⟩ := hreads
    have h := h.resolve_left (by simp [Token.isSealed])
    have := lexes_identifier_of_endsName (isName_clean hn hr) (h.endsName hname)
      fun hd => hp (h.head '(' (by simp) hd)
    simpa [Token.text, Token.withoutNul, Text.Escaped.identifier] using this
  case function name =>
    obtain ⟨-, hn, hu⟩ := hreads
    have := @lexes_function ds _ (isName_clean hn hr) (sameWord_clean hu)
    simpa [Token.text, Token.withoutNul, Text.Escaped.identifier] using this
  case atKeyword name =>
    obtain ⟨-, hn, hname⟩ := hreads
    have h := h.resolve_left (by simp [Token.isSealed])
    have := lexes_atKeyword (hclean hn) (toNat_clean_ne_zero name) (h.endsName hname)
    simpa [Token.text, Token.withoutNul, Text.Escaped.identifier] using this
  case hash name =>
    obtain ⟨-, hn, hname⟩ := hreads
    have h := h.resolve_left (by simp [Token.isSealed])
    have := lexes_hashName (hclean hn) (toNat_clean_ne_zero name) (h.endsName hname)
    simpa [Token.text, Token.withoutNul, Text.Escaped.name] using this
  case number x u written =>
    obtain ⟨hs, behind, _, d, hn, hd, hx, hu⟩ := hreads
    exact lexes_number hs hn hd hx hu (h.resolve_left (by simp [Token.isSealed])) hr
  all_goals
    obtain ⟨hc, rfl, hsymbol, hh, ha, hn, hi⟩ := hreads
    rw [hc] at h
    have := lexes_symbol_of_echoes hsymbol hh ha hn hi hg (h.imp_left isPunctuation_of_isSealed)
    have htext := (congrArg (·.text.toList) hc).trans (text_single c)
    rw [← hc] at this
    simp only [Token.withoutNul]
    rw [htext]
    exact this

end Lexing
end Stylesheet
