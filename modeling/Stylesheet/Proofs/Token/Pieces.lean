import Stylesheet.Proofs.Token.Lexes
/-!
The texts of single tokens. A name, a string, a color or a character that stands for itself is taken
off a text as one token, if what follows cannot be part of it (`Stops`).
-/

namespace Stylesheet.Lexing

open Text

variable {multibyte : Bool} {c d : Char} {cs ds rest : List Char} {s : String}

-- The characters that end every token in front of them and are no part of it.
def stops : List Char :=
  [' ', '\t', '\n', ',', '/', ')', ';', '{', '}', '!', ':']

def Stops (rest : List Char) : Prop :=
  ∀ c ∈ rest.head?, c ∈ stops

theorem stops_nil : Stops [] := by
  simp [Stops]

theorem startsEscape_cons (h : c ≠ '\\') : startsEscape (c :: rest) = false := by
  unfold startsEscape
  split
  · rename_i he
    simp_all
  · rfl

theorem endsName_cons (h : isNameChar true c = false) (hb : c ≠ '\\') : EndsName (c :: rest) := by
  simp [EndsName, nameSpan, Pending.take?, h, startsEscape_cons hb]

theorem Stops.endsName (h : Stops rest) : EndsName rest := by
  cases rest
  case nil => rfl
  case cons c rest =>
    obtain ⟨hc, hb⟩ := (by decide : ∀ c ∈ stops, isNameChar true c = false ∧ c ≠ '\\') c (h c rfl)
    exact endsName_cons hc hb

theorem endsName_paren : EndsName ('(' :: rest) :=
  endsName_cons (by decide) (by decide)

/-! ### Characters by themselves -/

-- Characters that no name, string or number is made of, and the marks in front of some of these.
def isSymbol (c : Char) : Bool :=
  isAscii c && !c.isAlpha && c != '_' && !c.isDigit && !Selector.isQuote c && c != '\\' && !isBlank c

theorem startsGap_cons (h : isBlank c = false) (hs : c ≠ '/') : startsGap (c :: rest) = false := by
  unfold startsGap
  split
  · rename_i he
    simp_all
  · rename_i he
    cases he
    exact h
  · rfl

theorem startsIdentifier_cons (hm : c ≠ '-') :
    startsIdentifier multibyte (c :: rest) =
      (isNameStart multibyte c || startsEscape (c :: rest)) := by
  unfold startsIdentifier
  split <;> simp_all

theorem startsNumber_cons (hp : c ≠ '+') (hm : c ≠ '-') (hd : c ≠ '.') :
    startsNumber (c :: rest) = c.isDigit := by
  simp only [startsNumber, hp, hm, decide_false, Bool.or_self, Bool.false_eq_true, if_false]
  unfold startsUnsigned
  split
  · rename_i he
    simp_all
  · rfl

theorem lexeme_symbol (hc : isSymbol c) (hh : c = '#' → startsName multibyte rest = false)
    (ha : c = '@' → startsIdentifier multibyte rest = false)
    (hn : startsNumber (c :: rest) = false) (hi : startsIdentifier multibyte (c :: rest) = false) :
    lexeme multibyte c rest = ⟨.ok (single c), [c], rest⟩ := by
  simp only [isSymbol, Bool.and_eq_true, Bool.not_eq_true', bne_iff_ne] at hc
  obtain ⟨⟨⟨⟨⟨⟨hascii, _⟩, _⟩, _⟩, hq⟩, hb⟩, _⟩ := hc
  have hh' : (c = '#' && startsName multibyte rest) = false := by
    by_cases h : c = '#' <;> simp [h, hh]
  have ha' : (c = '@' && startsIdentifier multibyte rest) = false := by
    by_cases h : c = '@' <;> simp [h, ha]
  simp [lexeme, hq, hh', ha', hn, hi, hb, hascii]

-- Symbols that mean the same whatever follows them.
def isPunctuation (c : Char) : Bool :=
  isSymbol c && !(['#', '@', '+', '-', '.', '/'].contains c)

theorem lexeme_punctuation (h : isPunctuation c) : startsGap (c :: rest) = false ∧
    lexeme true c rest = ⟨.ok (single c), [c], rest⟩ := by
  simp only [isPunctuation, Bool.and_eq_true, Bool.not_eq_true', List.contains_eq_mem,
    decide_eq_false_iff_not, List.mem_cons, List.not_mem_nil, or_false, not_or] at h
  obtain ⟨hc, hh, ha, hp, hm, hd, hs⟩ := h
  have hsym := hc
  simp only [isSymbol, Bool.and_eq_true, Bool.not_eq_true', bne_iff_ne] at hc
  obtain ⟨⟨⟨⟨⟨⟨hascii, hal⟩, hu⟩, hdg⟩, _⟩, hb⟩, hbl⟩ := hc
  refine ⟨startsGap_cons hbl hs, lexeme_symbol hsym ?_ ?_ ?_ ?_⟩
  · exact fun h => absurd h hh
  · exact fun h => absurd h ha
  · rw [startsNumber_cons hp hm hd, hdg]
  · simp [startsIdentifier_cons hm, isNameStart, startsEscape_cons hb, hal, hu, hascii]

theorem lexes_punctuation (h : isPunctuation c) : Lexes (c :: rest) [single c] rest :=
  .lexeme (lexeme_punctuation h).1 (lexeme_punctuation h).2 .done

theorem lexeme_slash : lexeme multibyte '/' rest = ⟨.ok .slash, ['/'], rest⟩ := by
  refine lexeme_symbol (by decide) ?_ ?_ ?_ ?_
  · exact fun h => absurd h (by decide)
  · exact fun h => absurd h (by decide)
  · rw [startsNumber_cons (by decide) (by decide) (by decide)]
    decide
  · rw [startsIdentifier_cons (by decide), startsEscape_cons (by decide)]
    cases multibyte <;> decide

-- A slash starts a comment in front of a star.
theorem startsGap_slash (h : ∀ c ∈ rest.head?, c ≠ '*') : startsGap ('/' :: rest) = false := by
  cases rest
  case nil => decide
  case cons c rest =>
    have := h c rfl
    unfold startsGap
    split
    · rename_i he
      simp_all
    · rename_i he
      cases he
      decide
    · rfl

theorem lexes_slash (h : ∀ c ∈ rest.head?, c ≠ '*') : Lexes ('/' :: rest) [.slash] rest :=
  .lexeme (startsGap_slash h) lexeme_slash .done

-- Any other symbol is taken alone in front of what ends a token.
theorem lexes_symbol (hc : isSymbol c) (hs : c ≠ '/') (h : Stops rest) :
    Lexes (c :: rest) [single c] rest := by
  have hsym := hc
  simp only [isSymbol, Bool.and_eq_true, Bool.not_eq_true', bne_iff_ne] at hc
  obtain ⟨⟨⟨⟨⟨⟨hascii, hal⟩, hu⟩, hdg⟩, _⟩, hb⟩, hbl⟩ := hc
  have hname : startsName true rest = false ∧ startsIdentifier true rest = false ∧
      startsUnsigned rest = false ∧ startsDigit rest = false ∧
      startsIdentifier true ('-' :: rest) = false := by
    cases rest
    case nil => decide
    case cons d rest =>
      obtain ⟨hn, hst, hb, hd, hm, hp⟩ := (by decide : ∀ d ∈ stops, isNameChar true d = false ∧
        isNameStart true d = false ∧ d ≠ '\\' ∧ d.isDigit = false ∧ d ≠ '-' ∧ d ≠ '.') d (h d rfl)
      have hu : startsUnsigned (d :: rest) = false := by
        unfold startsUnsigned
        split
        · simp_all
        · exact hd
      have hi : startsIdentifier true ('-' :: d :: rest) = false := by
        rw [startsIdentifier]
        · simp [hst, startsEscape_cons hb]
        · exact fun he => hm he
      simp [startsName, startsIdentifier_cons hm, hn, hst, startsEscape_cons hb, hu, startsDigit,
        hd, hi]
  refine .lexeme (startsGap_cons hbl hs) (lexeme_symbol hsym (fun _ => hname.1)
    (fun _ => hname.2.1) ?_ ?_) .done
  · by_cases hpm : c = '+' ∨ c = '-'
    · rcases hpm with rfl | rfl <;> simpa [startsNumber] using hname.2.2.1
    · obtain ⟨hp, hm⟩ := not_or.mp hpm
      simp only [startsNumber, hp, hm, decide_false, Bool.or_self, Bool.false_eq_true, if_false]
      unfold startsUnsigned
      split
      · rename_i he
        cases he
        exact hname.2.2.2.1
      · exact hdg
  · by_cases hm : c = '-'
    · exact hm ▸ hname.2.2.2.2
    · simp [startsIdentifier_cons hm, isNameStart, startsEscape_cons hb, hal, hu, hascii]

/-! ### Names -/

-- Whether a text can be written as a name. White space beyond ASCII is not escaped, so that it may
-- not come first.
def isName (cs : List Char) : Bool :=
  !cs.isEmpty && cs.all (·.toNat != 0) && cs.head?.all fun c => isAscii c || !isBlank c

theorem isNameStart_of_isNameChar (h : isNameChar true c) (hd : c.isDigit = false) (hm : c ≠ '-') :
    isNameStart true c := by
  simpa [isNameChar, hd, hm] using h

theorem startsEscape_of_ne (h : c ≠ '\n') : startsEscape ('\\' :: c :: rest) := by
  simp [startsEscape, h]

theorem leadingChars_head (hc : c.toNat ≠ 0) :
    (isNameChar true c ∧ c.isDigit = false ∧
        Escaped.leadingChars (c :: cs) = c :: Escaped.nameChars cs) ∨
      ∃ e es, Escaped.leadingChars (c :: cs) = '\\' :: e :: es ∧ e ≠ '\n' := by
  have hcode (h : isAscii c) : ∃ e es, Escaped.code c ++ Escaped.nameChars cs = '\\' :: e :: es ∧
      e ≠ '\n' := by
    rcases code_eq h with ⟨h, he, hh, _⟩ | ⟨h, i, he, hh, _, _⟩
    all_goals exact ⟨h, _, by rw [he]; rfl, ne_newline_of_isHexDigit hh⟩
  rw [Escaped.leadingChars]
  split
  case isTrue h => exact .inr (hcode (isAscii_of_isDigit h))
  case isFalse h =>
    rw [Escaped.nameChar, if_neg hc]
    split
    case isTrue hp => exact .inl ⟨by rwa [isNameChar_eq_isPlain], by simpa using h, rfl⟩
    case isFalse hp =>
      split
      case isTrue hcc => exact .inr (hcode (isAscii_of_isControl hcc))
      case isFalse hcc => exact .inr ⟨c, _, rfl, (of_not_isPlain hp hcc).2⟩

-- How an identifier that is written begins. Only white space beyond ASCII stays white space.
theorem identifierChars_first (hne : cs ≠ []) (hnul : ∀ c ∈ cs, c.toNat ≠ 0) :
    ∃ d ds, Escaped.identifierChars cs = d :: ds ∧ d ≠ '/' ∧
      (isBlank d → cs.head? = some d ∧ ¬isAscii d) ∧
      ∀ rest, startsIdentifier true (d :: (ds ++ rest)) := by
  have hesc {e : Char} (he : e ≠ '\n') (rest : List Char) :
      startsIdentifier true ('\\' :: e :: rest) := by
    simp [startsIdentifier_cons (by decide : '\\' ≠ '-'), startsEscape_of_ne he]
  have hhyphen : isBlank '-' = false := by decide
  have hbackslash : isBlank '\\' = false := by decide
  fun_cases Escaped.identifierChars cs
  case case1 cs => exact ⟨_, _, rfl, by decide, by simp [hhyphen], fun rest => rfl⟩
  case case2 => exact ⟨_, _, rfl, by decide, by simp [hbackslash], hesc (by decide)⟩
  case case3 cs hn hm =>
    cases cs
    case nil => exact absurd rfl hm
    case cons c cs =>
      have hc : c ≠ '-' := by
        rintro rfl
        exact hn _ rfl
      refine ⟨_, _, rfl, by decide, by simp [hhyphen], fun rest => ?_⟩
      rcases @leadingChars_head c cs (hnul c (by simp)) with ⟨hp, hd, he⟩ | ⟨e, es, he, hn⟩
      · rw [he, List.cons_append, startsIdentifier]
        · simp [isNameStart_of_isNameChar hp hd hc]
        · exact hc
      · rw [he, List.cons_append, startsIdentifier]
        · simp [startsEscape_of_ne hn]
        · decide
  case case4 hn₁ hn₂ hn₃ =>
    cases cs
    case nil => contradiction
    case cons c cs =>
      have hc : c ≠ '-' := by
        rintro rfl
        exact hn₃ _ rfl
      rcases @leadingChars_head c cs (hnul c (by simp)) with ⟨hp, hd, he⟩ | ⟨e, es, he, hn⟩
      · refine ⟨_, _, he, ?_, fun hb => ⟨rfl, fun ha => ?_⟩, fun rest => ?_⟩
        · rintro rfl
          exact absurd hp (by decide)
        · have := of_isAscii (p := fun c => !isNameChar true c || !isBlank c) (by decide) ha
          simp [hp, hb] at this
        · simp [startsIdentifier_cons hc, isNameStart_of_isNameChar hp hd hc]
      · exact ⟨_, _, he, by decide, by simp [hbackslash], fun rest => hesc hn _⟩

theorem identifierChars_head (h : isName cs) :
    ∃ d ds, Escaped.identifierChars cs = d :: ds ∧
      ∀ rest, startsGap (d :: (ds ++ rest)) = false ∧
        startsIdentifier true (d :: (ds ++ rest)) := by
  simp only [isName, Bool.and_eq_true, Bool.not_eq_true', List.isEmpty_eq_false_iff,
    List.all_eq_true, bne_iff_ne] at h
  obtain ⟨⟨hne, hnul⟩, hblank⟩ := h
  obtain ⟨d, ds, he, hs, hb, hi⟩ := identifierChars_first hne hnul
  refine ⟨d, ds, he, fun rest => ⟨startsGap_cons (eq_false_of_ne_true fun hd => ?_) hs, hi rest⟩⟩
  obtain ⟨hhead, ha⟩ := hb hd
  simp [hhead, ha, hd] at hblank

theorem isNameStart_true (h : isNameStart multibyte c) : isNameStart true c := by
  cases multibyte <;> simp_all [isNameStart]

-- What a name starts with starts nothing else.
theorem of_isNameStart (h : isNameStart multibyte c ∨ c = '-' ∨ c = '\\') :
    Selector.isQuote c = false ∧ c ≠ '#' ∧ c ≠ '@' ∧ c ≠ '+' ∧ c ≠ '.' ∧ c.isDigit = false := by
  replace h := h.imp_left isNameStart_true
  by_cases ha : isAscii c
  · have := of_isAscii (p := fun c => !(isNameStart true c || c == '-' || c == '\\') ||
      (!Selector.isQuote c && c != '#' && c != '@' && c != '+' && c != '.' && !c.isDigit))
      (by decide) ha
    rcases h with h | rfl | rfl
    · simp only [h, Bool.true_or, Bool.not_true, Bool.false_or, Bool.and_eq_true,
        Bool.not_eq_true', bne_iff_ne, and_assoc] at this
      exact this
    all_goals decide
  · have hd : c.isDigit = false := Bool.eq_false_iff.mpr fun hd => ha (isAscii_of_isDigit hd)
    have hq : Selector.isQuote c = false := by
      simp only [Selector.isQuote, Bool.or_eq_false_iff, beq_eq_false_iff_ne]
      constructor <;> (rintro rfl; exact ha (by decide))
    refine ⟨hq, ?_, ?_, ?_, ?_, hd⟩
    all_goals
      rintro rfl
      exact ha (by decide)

theorem startsUnsigned_cons (hd : c ≠ '.') : startsUnsigned (c :: rest) = c.isDigit := by
  unfold startsUnsigned
  split
  · simp_all
  · rfl

theorem isNameStart_or_of_startsIdentifier (h : startsIdentifier multibyte (c :: rest)) :
    isNameStart multibyte c ∨ c = '-' ∨ c = '\\' := by
  by_cases hm : c = '-'
  · exact .inr (.inl hm)
  · rw [startsIdentifier_cons hm, Bool.or_eq_true] at h
    by_cases hb : c = '\\'
    · exact .inr (.inr hb)
    · exact .inl (h.resolve_right (by simp [startsEscape_cons hb]))

theorem not_startsNumber_of_startsIdentifier (h : startsIdentifier multibyte (c :: rest)) :
    startsNumber (c :: rest) = false := by
  obtain ⟨_, _, _, hp, hd, hdg⟩ := of_isNameStart (isNameStart_or_of_startsIdentifier h)
  by_cases hm : c = '-'
  · subst hm
    cases rest
    case nil => rfl
    case cons d rest =>
      have hd : isNameStart multibyte d ∨ d = '-' ∨ d = '\\' := by
        by_cases hd : d = '-'
        · exact .inr (.inl hd)
        · rw [startsIdentifier] at h
          · by_cases hb : d = '\\'
            · exact .inr (.inr hb)
            · exact .inl (by simpa [startsEscape_cons hb] using h)
          · exact hd
      obtain ⟨_, _, _, _, hdot, hdg⟩ := of_isNameStart hd
      simp [startsNumber, startsUnsigned_cons hdot, hdg]
  · rw [startsNumber_cons hp hm hd, hdg]

-- What begins as an identifier is read as one.
theorem lexeme_of_startsIdentifier (h : startsIdentifier multibyte (c :: rest)) :
    lexeme multibyte c rest = identifierLike multibyte (c :: rest) := by
  obtain ⟨hq, hh, ha, _⟩ := of_isNameStart (isNameStart_or_of_startsIdentifier h)
  simp [lexeme, hq, hh, ha, not_startsNumber_of_startsIdentifier h, h]

theorem toNat_ne_zero_of_isName (h : isName cs) : ∀ c ∈ cs, c.toNat ≠ 0 := by
  simp only [isName, Bool.and_eq_true, List.all_eq_true, bne_iff_ne] at h
  exact h.1.2

theorem lexes_identifier_of_endsName (h : isName s.toList) (hr : EndsName rest)
    (hp : rest.head? ≠ some '(') :
    Lexes (Escaped.identifierChars s.toList ++ rest) [.identifier s] rest := by
  obtain ⟨d, ds, he, hd⟩ := identifierChars_head h
  obtain ⟨hg, hi⟩ := hd rest
  have hspan := @nameSpan_identifierChars s.toList rest hr
  have hdec := unescape_identifierChars (toNat_ne_zero_of_isName h)
  rw [he, List.cons_append] at hspan ⊢
  rw [he] at hdec
  have hl : lexeme true d (ds ++ rest) = ⟨.ok (.identifier s), d :: ds, rest⟩ := by
    rw [lexeme_of_startsIdentifier hi, identifierLike, hspan]
    dsimp only
    split
    · exact absurd rfl hp
    · simp [Lexeme.decoded, hdec]
  exact .lexeme hg hl .done

theorem lexes_identifier (h : isName s.toList) (hr : Stops rest) :
    Lexes (Escaped.identifierChars s.toList ++ rest) [.identifier s] rest :=
  lexes_identifier_of_endsName h hr.endsName fun hp => absurd (hr '(' hp) (by decide)

theorem lexes_function (h : isName s.toList) (hu : Text.sameWord s "url" = false) :
    Lexes (Escaped.identifierChars s.toList ++ '(' :: rest) [.function s] rest := by
  obtain ⟨d, ds, he, hd⟩ := identifierChars_head h
  obtain ⟨hg, hi⟩ := hd ('(' :: rest)
  have hspan := @nameSpan_identifierChars s.toList _ (@endsName_paren rest)
  have hdec := unescape_identifierChars (toNat_ne_zero_of_isName h)
  rw [he, List.cons_append] at hspan ⊢
  rw [he] at hdec
  have hl : lexeme true d (ds ++ '(' :: rest) =
      ⟨.ok (.function s), d :: ds ++ ['('], rest⟩ := by
    rw [lexeme_of_startsIdentifier hi, identifierLike, hspan]
    simp [hdec, hu]
  exact .lexeme hg hl .done

/-! ### Strings, targets and colors -/

theorem quoted_stringChars (cs rest : List Char) :
    quoted '\x22' (cs.flatMap Escaped.stringChar ++ '\x22' :: rest) =
      (some (cs.flatMap Escaped.stringChar), Escaped.quotedChars cs, rest) := by
  rw [quoted, stringSpan_stringChars]
  simp [Escaped.quotedChars]

theorem lexes_string (h : ∀ c ∈ s.toList, c.toNat ≠ 0) :
    Lexes (Escaped.quotedChars s.toList ++ rest) [.string s] rest := by
  have hq := quoted_stringChars s.toList rest
  have hdec := unescape_stringChars h
  rw [Escaped.quotedChars, List.cons_append, List.append_assoc, List.singleton_append]
  have hquote : Selector.isQuote '\x22' = true := by decide
  have hl : lexeme true '\x22' (s.toList.flatMap Escaped.stringChar ++ '\x22' :: rest) =
      ⟨.ok (.string s), Escaped.quotedChars s.toList, rest⟩ := by
    simp [lexeme, hquote, string, hq, Lexeme.decoded, hdec]
  exact .lexeme (startsGap_cons (by decide) (by decide)) hl .done

theorem blankSpan_of_not_isBlank (h : isBlank c = false) :
    blankSpan (c :: rest) = ([], c :: rest) := by
  simp [blankSpan, h]

theorem lexes_url (h : ∀ c ∈ s.toList, c.toNat ≠ 0) :
    Lexes ('u' :: 'r' :: 'l' :: '(' :: (Escaped.quotedChars s.toList ++ ')' :: rest))
      [.url s] rest := by
  have hspan : nameSpan true .nothing
      ('u' :: 'r' :: 'l' :: '(' :: (Escaped.quotedChars s.toList ++ ')' :: rest)) =
      (['u', 'r', 'l'], '(' :: (Escaped.quotedChars s.toList ++ ')' :: rest)) :=
    @nameSpan_identifierChars ['u', 'r', 'l'] _ endsName_paren
  have hname : unescape .nothing ['u', 'r', 'l'] = .ok ['u', 'r', 'l'] := rfl
  have hq := quoted_stringChars s.toList (')' :: rest)
  have hdec := unescape_stringChars h
  have hl : lexeme true 'u' ('r' :: 'l' :: '(' :: (Escaped.quotedChars s.toList ++ ')' :: rest)) =
      ⟨.ok (.url s), 'u' :: 'r' :: 'l' :: '(' :: (Escaped.quotedChars s.toList ++ [')']),
        rest⟩ := by
    have hsame : Text.sameWord (String.ofList ['u', 'r', 'l']) "url" = true := by decide
    have hquote : Selector.isQuote '\x22' = true := by decide
    have hparen : isBlank ')' = false := by decide
    have hblank : isBlank '\x22' = false := by decide
    rw [lexeme_of_startsIdentifier rfl, identifierLike, hspan]
    simp only [hname, hsame, if_true, url]
    rw [show Escaped.quotedChars s.toList ++ ')' :: rest =
      '\x22' :: (s.toList.flatMap Escaped.stringChar ++ '\x22' :: ')' :: rest) by
        simp [Escaped.quotedChars], blankSpan_of_not_isBlank hblank]
    simp [hquote, quotedUrl, hq, blankSpan_of_not_isBlank hparen, Lexeme.decoded, hdec]
  exact .lexeme (startsGap_cons (by decide) (by decide)) hl .done

theorem nameSpan_of_isNameChar (h : ∀ c ∈ cs, isNameChar true c) (hr : EndsName rest) :
    nameSpan true .nothing (cs ++ rest) = (cs, rest) := by
  induction cs
  case nil => exact hr
  case cons c cs ih =>
    obtain ⟨hc, hcs⟩ := List.forall_mem_cons.mp h
    simp [nameSpan, Pending.take?, hc, ih hcs, extend]

theorem unescape_of_ne_backslash (h : ∀ c ∈ cs, c ≠ '\\') : unescape .nothing cs = .ok cs := by
  induction cs
  case nil => rfl
  case cons c cs ih =>
    obtain ⟨hc, hcs⟩ := List.forall_mem_cons.mp h
    simp [unescape, hc, ih hcs, Except.map]

theorem unescape_of_isNameChar (h : ∀ c ∈ cs, isNameChar true c) :
    unescape .nothing cs = .ok cs := by
  refine unescape_of_ne_backslash fun c hc => ?_
  rintro rfl
  exact absurd (h _ hc) (by decide)

-- Digits and letters behind a hash are all part of it.
theorem lexes_hash (hn : s.toList ≠ []) (h : ∀ c ∈ s.toList, isNameChar true c) (hr : Stops rest) :
    Lexes ('#' :: (s.toList ++ rest)) [.hash s] rest := by
  have hs : startsName true (s.toList ++ rest) := by
    obtain ⟨c, cs, hcs⟩ := List.exists_cons_of_ne_nil hn
    simp [hcs, startsName, h c (by simp [hcs])]
  have hq : Selector.isQuote '#' = false := by decide
  have hl : lexeme true '#' (s.toList ++ rest) = ⟨.ok (.hash s), '#' :: s.toList, rest⟩ := by
    simp [lexeme, hq, hs, named, nameSpan_of_isNameChar h hr.endsName, Lexeme.decoded,
      unescape_of_isNameChar h]
  exact .lexeme (startsGap_cons (by decide) (by decide)) hl .done

end Stylesheet.Lexing
