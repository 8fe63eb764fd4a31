import Stylesheet.Proofs.Text.Trimming
import Stylesheet.Proofs.Token.ReadBack
/-!
The last token of a text that is trimmed. Behind the code of a character trimming takes a blank away,
and there the code is read without it. Main statement: `Lexing.lexes_trimmed`.
-/

namespace Stylesheet

namespace Lexing

open Text

variable {c d : Char} {cs ds rest w : List Char}

/-! ### The end of a name -/

-- What is written of a name in front of its last character.
structure Writes (w cs : List Char) : Prop where
  span (rest : List Char) :
    nameSpan true .nothing (w ++ rest) = prepend w (nameSpan true .nothing rest)
  decoded (rest : List Char) :
    unescape .nothing (w ++ rest) = (unescape .nothing rest).map (cs ++ ·)

theorem map_map {x : Except LexicalFault (List Char)} :
    (x.map (ds ++ ·)).map (cs ++ ·) = x.map (cs ++ ds ++ ·) := by
  cases x <;> simp [Except.map]

namespace Writes

theorem nil : Writes [] [] where
  span _ := rfl
  decoded rest := by cases h : unescape .nothing rest <;> simp [h, Except.map]

theorem append {w' : List Char} (h : Writes w cs) (h' : Writes w' ds) :
    Writes (w ++ w') (cs ++ ds) where
  span rest := by rw [List.append_assoc, h.span, h'.span, prepend_prepend]
  decoded rest := by rw [List.append_assoc, h.decoded, h'.decoded, map_map]

theorem nameChar (hc : c.toNat ≠ 0) : Writes (Escaped.nameChar c) [c] where
  span rest := nameSpan_nameChar c rest
  decoded rest := unescape_nameChar hc rest

theorem code (ha : isAscii c) (hc : c.toNat ≠ 0) : Writes (Escaped.code c) [c] where
  span _ := nameSpan_code ha
  decoded _ := unescape_code ha hc

theorem nameChars (h : ∀ c ∈ cs, c.toNat ≠ 0) : Writes (Escaped.nameChars cs) cs where
  span rest := nameSpan_nameChars cs rest
  decoded rest := unescape_nameChars h rest

theorem leadingChars (h : ∀ c ∈ cs, c.toNat ≠ 0) : Writes (Escaped.leadingChars cs) cs where
  span rest := nameSpan_leadingChars cs rest
  decoded rest := unescape_leadingChars h rest

theorem hyphen : Writes ['-'] ['-'] :=
  @nameChar '-' (by decide)

end Writes

theorem nameChars_concat (cs : List Char) (c : Char) :
    Escaped.nameChars (cs ++ [c]) = Escaped.nameChars cs ++ Escaped.nameChar c := by
  simp [Escaped.nameChars]

theorem leadingChars_concat (hn : cs ≠ []) (c : Char) :
    Escaped.leadingChars (cs ++ [c]) = Escaped.leadingChars cs ++ Escaped.nameChar c := by
  cases cs
  case nil => contradiction
  case cons d cs =>
    rw [List.cons_append, Escaped.leadingChars, Escaped.leadingChars, nameChars_concat,
      List.append_assoc]

-- How the last character of a name may be written.
def IsLast (c : Char) (z : List Char) : Prop :=
  z = Escaped.nameChar c ∨ c.isDigit ∧ z = Escaped.code c ∨ c = '-' ∧ z = ['\\', '-']

theorem isLast_leadingChars (c : Char) : IsLast c (Escaped.leadingChars [c]) := by
  rw [Escaped.leadingChars]
  split
  case isTrue h => exact .inr (.inl ⟨h, by simp [Escaped.nameChars]⟩)
  case isFalse => exact .inl (by simp [Escaped.nameChars])

theorem identifierChars_cons (hd : d ≠ '-') (cs : List Char) :
    Escaped.identifierChars (d :: cs) = Escaped.leadingChars (d :: cs) := by
  rw [Escaped.identifierChars]
  all_goals simp [hd]

theorem identifierChars_hyphen (hd : d ≠ '-') (cs : List Char) :
    Escaped.identifierChars ('-' :: d :: cs) = '-' :: Escaped.leadingChars (d :: cs) := by
  rw [Escaped.identifierChars]
  all_goals simp [hd]

theorem identifierChars_concat (h : ∀ d ∈ cs, d.toNat ≠ 0) (c : Char) :
    ∃ w z, Escaped.identifierChars (cs ++ [c]) = w ++ z ∧ Writes w cs ∧ IsLast c z := by
  match cs with
  | [] =>
    by_cases hc : c = '-'
    · subst hc
      exact ⟨[], ['\\', '-'], rfl, .nil, .inr (.inr ⟨rfl, rfl⟩)⟩
    · exact ⟨[], _, identifierChars_cons hc [], .nil, isLast_leadingChars c⟩
  | [d] =>
    by_cases hd : d = '-'
    case neg =>
      refine ⟨_, _, ?_, .leadingChars h, .inl rfl⟩
      exact (identifierChars_cons hd [c]).trans (@leadingChars_concat [d] (by simp) c)
    case pos =>
      subst hd
      by_cases hc : c = '-'
      · subst hc
        exact ⟨['-'], ['-'], rfl, .hyphen, .inl nameChar_hyphen.symm⟩
      · exact ⟨['-'], _, identifierChars_hyphen hc [], .hyphen, isLast_leadingChars c⟩
  | d :: e :: cs =>
    by_cases hd : d = '-'
    case neg =>
      refine ⟨_, _, ?_, .leadingChars h, .inl rfl⟩
      exact (identifierChars_cons hd _).trans (@leadingChars_concat (d :: e :: cs) (by simp) c)
    case pos =>
      subst hd
      obtain ⟨-, hcs⟩ := List.forall_mem_cons.mp h
      by_cases he : e = '-'
      · subst he
        have hcs := Writes.nameChars (List.forall_mem_cons.mp hcs).2
        refine ⟨_, _, ?_, .append .hyphen (.append .hyphen hcs), .inl rfl⟩
        rw [List.cons_append, List.cons_append, Escaped.identifierChars, nameChars_concat]
        rfl
      · refine ⟨_, _, ?_, .append .hyphen (.leadingChars hcs), .inl rfl⟩
        rw [List.cons_append, List.cons_append, identifierChars_hyphen he, ← List.cons_append,
          leadingChars_concat (by simp)]
        rfl

-- A name that is trimmed is read as before.
structure Trims (cs z z' : List Char) : Prop where
  trimEnd (w : List Char) : trimEnd (w ++ z) = w ++ z'
  span : nameSpan true .nothing z' = (z', [])
  decoded : unescape .nothing z' = .ok cs
  shape : z' = z ∨ z = z' ++ [' '] ∧ ∃ v d, z' = v ++ [d] ∧ d ≠ '\\'

theorem Trims.append (h : Writes w cs) {z z' : List Char} (h' : Trims ds z z') :
    Trims (cs ++ ds) (w ++ z) (w ++ z') where
  trimEnd v := by rw [← List.append_assoc, h'.trimEnd, List.append_assoc]
  span := by rw [h.span, h'.span, prepend]
  decoded := by rw [h.decoded, h'.decoded, Except.map]
  shape := by
    obtain rfl | ⟨rfl, v, d, rfl, hd⟩ := h'.shape
    · exact .inl rfl
    · exact .inr ⟨by simp, w ++ v, d, by simp, hd⟩

theorem of_isHexDigit (h : isHexDigit c) : isBlank c = false ∧ c ≠ '\\' := by
  have := of_isAscii (p := fun c => !isHexDigit c || (!isBlank c && c != '\\')) (by decide)
    (isAscii_of_isHexDigit h)
  simpa [h] using this

theorem trims_code (ha : isAscii c) (hc : c.toNat ≠ 0) :
    ∃ z', Trims [c] (Escaped.code c) z' := by
  have hcode := charOfCode_toNat hc
  obtain ⟨h, he, hh, hv⟩ | ⟨h, i, he, hh, hi, hv⟩ := code_eq ha
  case inl =>
    obtain ⟨hb, hbackslash⟩ := of_isHexDigit hh
    refine ⟨['\\', h], ?_, ?_, ?_, .inr ⟨he, ['\\'], h, rfl, hbackslash⟩⟩
    · intro w
      rw [he, show w ++ ['\\', h, ' '] = w ++ ['\\', h] ++ [' '] by simp,
        trimEnd_concat_blank isBlank_blank, show w ++ ['\\', h] = w ++ ['\\'] ++ [h] by simp,
        trimEnd_concat hb]
    · simp [nameSpan, Pending.take?, not_isNameChar_backslash, startsEscape, hh,
        ne_newline_of_isHexDigit hh, extend]
    · simp [unescape, hh, hv, hcode]
  case inr =>
    obtain ⟨hb, hbackslash⟩ := of_isHexDigit hi
    refine ⟨['\\', h, i], ?_, ?_, ?_, .inr ⟨he, ['\\', h], i, rfl, hbackslash⟩⟩
    · intro w
      rw [he, show w ++ ['\\', h, i, ' '] = w ++ ['\\', h, i] ++ [' '] by simp,
        trimEnd_concat_blank isBlank_blank, show w ++ ['\\', h, i] = w ++ ['\\', h] ++ [i] by simp,
        trimEnd_concat hb]
    · simp [nameSpan, Pending.take?, not_isNameChar_backslash, startsEscape, hh, hi,
        ne_newline_of_isHexDigit hh, extend]
    · simp [unescape, hh, hi, hv, hcode]

theorem trims_nameChar (hc : c.toNat ≠ 0) (hb : isBlank c → Escaped.isControl c) :
    ∃ z', Trims [c] (Escaped.nameChar c) z' := by
  cases hcc : Escaped.isControl c
  case true =>
    have ha := isAscii_of_isControl hcc
    have hcode : Escaped.nameChar c = Escaped.code c := by
      have := of_isAscii (p := fun c => !Escaped.isControl c || !Escaped.isPlain c) (by decide) ha
      simp only [hcc, Bool.not_true, Bool.false_or, Bool.not_eq_true'] at this
      rw [Escaped.nameChar, if_neg hc, if_neg (by simp [this]), if_pos hcc]
    rw [hcode]
    exact trims_code ha hc
  case false =>
    have hb : isBlank c = false := eq_false_of_ne_true fun h => by simp [hb h] at hcc
    have hw := Writes.nameChar hc
    have hends : ∃ v, Escaped.nameChar c = v ++ [c] := by
      rw [Escaped.nameChar, if_neg hc]
      split
      · exact ⟨[], rfl⟩
      · rw [if_neg (by simp [hcc])]
        exact ⟨['\\'], rfl⟩
    refine ⟨Escaped.nameChar c, ?_, ?_, ?_, .inl rfl⟩
    · obtain ⟨v, hv⟩ := hends
      intro w
      rw [hv, ← List.append_assoc, trimEnd_concat hb]
    · have := hw.span []
      simpa [nameSpan, prepend] using this
    · have := hw.decoded []
      simpa [unescape, Except.map] using this

theorem trims_isLast (hc : c.toNat ≠ 0) (hb : isBlank c → Escaped.isControl c) {z : List Char}
    (h : IsLast c z) : ∃ z', Trims [c] z z' := by
  obtain rfl | ⟨hd, rfl⟩ | ⟨rfl, rfl⟩ := h
  · exact trims_nameChar hc hb
  · exact trims_code (isAscii_of_isDigit hd) hc
  · refine ⟨['\\', '-'], fun w => ?_, by decide, rfl, .inl rfl⟩
    rw [show w ++ ['\\', '-'] = w ++ ['\\'] ++ ['-'] by simp, trimEnd_concat (by decide)]

-- The last character of a name is not trimmed away.
def KeepsEnd (cs : List Char) : Prop :=
  ∀ c ∈ cs.getLast?, isBlank c → Escaped.isControl c

theorem trims_nameChars (hn : cs ≠ []) (h : ∀ c ∈ cs, c.toNat ≠ 0) (hk : KeepsEnd cs) :
    ∃ z', Trims cs (Escaped.nameChars cs) z' := by
  obtain ⟨ds, c, rfl⟩ : ∃ ds c, cs = ds ++ [c] := ⟨_, _, (List.dropLast_concat_getLast hn).symm⟩
  obtain ⟨z', hz⟩ := trims_nameChar (h c (by simp)) (hk c (by simp))
  have hw : Writes (Escaped.nameChars ds) ds := .nameChars fun d hd => h d (by simp [hd])
  rw [nameChars_concat]
  exact ⟨_, hz.append hw⟩

theorem trims_identifierChars (hn : cs ≠ []) (h : ∀ c ∈ cs, c.toNat ≠ 0) (hk : KeepsEnd cs) :
    ∃ z', Trims cs (Escaped.identifierChars cs) z' := by
  obtain ⟨ds, c, rfl⟩ : ∃ ds c, cs = ds ++ [c] := ⟨_, _, (List.dropLast_concat_getLast hn).symm⟩
  have hds : ∀ d ∈ ds, d.toNat ≠ 0 := fun d hd => h d (by simp [hd])
  obtain ⟨w, z, he, hw, hlast⟩ := identifierChars_concat hds c
  obtain ⟨z', hz⟩ := trims_isLast (h c (by simp)) (hk c (by simp)) hlast
  rw [he]
  exact ⟨_, hz.append hw⟩

/-! ### The last token -/

variable {s : String} {z' : List Char}

theorem ne_nil_of_trims {z : List Char} (hn : cs ≠ []) (hz : Trims cs z z') : z' ≠ [] := by
  rintro rfl
  exact hn (Except.ok.inj hz.decoded).symm

theorem startsIdentifier_trims (hn : cs ≠ []) (h : ∀ c ∈ cs, c.toNat ≠ 0)
    (hz : Trims cs (Escaped.identifierChars cs) z') : startsIdentifier true z' := by
  obtain ⟨d, ds, he, -, -, hi⟩ := identifierChars_first hn h
  have hi := hi []
  rw [List.append_nil, ← he] at hi
  obtain rfl | ⟨hblank, v, e, hv, hd⟩ := hz.shape
  · exact hi
  · have hends (w : List Char) : z' ≠ w ++ ['\\'] := by
      rw [hv]
      exact fun he => hd (by simpa using (List.append_inj' he rfl).2)
    rwa [hblank, startsIdentifier_stop (by decide) (hends []) (hends ['-'])] at hi

theorem lexes_trimmedIdentifier (h : isName s.toList)
    (hz : Trims s.toList (Escaped.identifierChars s.toList) z') : Lexes z' [.identifier s] [] := by
  have hn : s.toList ≠ [] := by
    intro he
    rw [he] at h
    cases h
  have hi := startsIdentifier_trims hn (toNat_ne_zero_of_isName h) hz
  obtain ⟨d, ds, he, hd⟩ := identifierChars_head h
  obtain ⟨e, es, rfl⟩ := List.exists_cons_of_ne_nil (ne_nil_of_trims hn hz)
  -- Both texts begin with the same character.
  have hgap : startsGap (e :: es) = false := by
    obtain rfl : d = e := by
      obtain hz | ⟨hz, -⟩ := hz.shape <;> rw [he] at hz
      · exact (List.cons.inj hz).1.symm
      · exact (List.cons.inj hz).1
    have hb := isBlank_of_not_startsGap (hd []).1
    have hslash : d ≠ '/' := by
      rintro rfl
      exact absurd hi (by rw [startsIdentifier_cons (by decide), startsEscape_cons (by decide)]; decide)
    exact startsGap_cons hb hslash
  have hl : lexeme true e es = ⟨.ok (.identifier s), e :: es, []⟩ := by
    rw [lexeme_of_startsIdentifier hi, identifierLike_of_ne hz.span (by simp)]
    simp [Lexeme.decoded, hz.decoded]
  exact .lexeme hgap hl .done

theorem lexes_trimmedAtKeyword (hn : s.toList ≠ []) (h : ∀ c ∈ s.toList, c.toNat ≠ 0)
    (hz : Trims s.toList (Escaped.identifierChars s.toList) z') :
    Lexes ('@' :: z') [.atKeyword s] [] := by
  have hi := startsIdentifier_trims hn h hz
  have hq : Selector.isQuote '@' = false := by decide
  have hhash : ('@' = '#') = False := by decide
  have hl : lexeme true '@' z' = ⟨.ok (.atKeyword s), '@' :: z', []⟩ := by
    simp [lexeme, hq, hhash, hi, named, hz.span, Lexeme.decoded, hz.decoded]
  exact .lexeme (startsGap_cons (by decide) (by decide)) hl .done

theorem lexes_trimmedHash (hn : s.toList ≠ [])
    (hz : Trims s.toList (Escaped.nameChars s.toList) z') : Lexes ('#' :: z') [.hash s] [] := by
  have hname : startsName true z' := by
    refine Bool.of_not_eq_false fun h => ne_nil_of_trims hn hz ?_
    have hspan := hz.span
    rw [show nameSpan true .nothing z' = _ from endsName_of_not_startsName h] at hspan
    exact (Prod.mk.inj hspan).1.symm
  have hq : Selector.isQuote '#' = false := by decide
  have hl : lexeme true '#' z' = ⟨.ok (.hash s), '#' :: z', []⟩ := by
    simp [lexeme, hq, hname, named, hz.span, Lexeme.decoded, hz.decoded]
  exact .lexeme (startsGap_cons (by decide) (by decide)) hl .done

end Lexing

-- Whether a token behind whose text nothing is kept but what trimming leaves is read as the token.
def Token.keepsEnd : Token → Bool
  | identifier name | atKeyword name | hash name | number _ (some name) _ =>
    name.toList.getLast?.all fun c => !Text.isBlank c || Text.Escaped.isControl c
  | _ => true

namespace Lexing

open Text

variable {multibyte : Bool} {c : Char} {cs rest taken : List Char} {t : Token}

theorem clean_ne_nil {s : String} (h : s.toList ≠ []) : (Token.withoutNul.clean s).toList ≠ [] := by
  rw [Token.toList_clean]
  simpa using h

theorem keepsEnd_clean {s : String}
    (h : s.toList.getLast?.all fun c => !isBlank c || Escaped.isControl c) :
    KeepsEnd (Token.withoutNul.clean s).toList := by
  intro c hc hb
  rw [Token.toList_clean, List.getLast?_map] at hc
  cases hl : s.toList.getLast?
  case none => simp [hl] at hc
  case some d =>
    rw [hl] at h hc
    obtain rfl : withoutNul d = c := by simpa using hc
    obtain ⟨-, hd⟩ | hd := Escaped.withoutNul_cases d
    · rw [hd] at hb
      exact absurd hb (by decide)
    · rw [hd] at hb ⊢
      simpa [hb] using h

theorem not_isBlank_of_mem_numeral (h : isNumeric c ∨ isExponentLetter c) : isBlank c = false := by
  rcases h with h | h
  · have := of_isAscii (p := fun c => !isNumeric c || !isBlank c) (by decide)
      (isAscii_of_isNumeric h)
    simpa [h] using this
  · simp only [isExponentLetter, Bool.or_eq_true, beq_iff_eq] at h
    rcases h with rfl | rfl <;> decide

theorem exists_concat_numeral {written : String} {behind : List Char} (h : startsNumber (c :: cs))
    (hn : numeral (c :: cs) = (written.toList, behind)) :
    ∃ ds d, written.toList = ds ++ [d] ∧ isBlank d = false := by
  have hw : written.toList ≠ [] := by
    have := numeral_ne_nil h
    rwa [hn] at this
  have hlast := List.dropLast_concat_getLast hw
  exact ⟨_, _, hlast.symm, not_isBlank_of_mem_numeral (of_mem_numeral hn _ (List.getLast_mem hw))⟩

-- No control character is in a unit that is written as it is, so that one at its end would not be
-- kept if it was white space.
theorem exists_concat_unit {unit written : String} {x : Double}
    (hr : (Token.number x (some unit) written).isReadable [])
    (hk : (Token.number x (some unit) written).keepsEnd) :
    ∃ ds d, unit.toList = ds ++ [d] ∧ isBlank d = false := by
  simp only [Token.isReadable, Bool.or_eq_true, beq_iff_eq, Bool.and_eq_true,
    List.all_eq_true] at hr
  obtain rfl | ⟨⟨hname, hi⟩, -⟩ := hr
  · exact ⟨[], '%', rfl, by decide⟩
  · obtain ⟨e, es, he, -⟩ := ne_nil_of_startsIdentifier hi
    obtain ⟨ds, d, hd⟩ : ∃ ds d, unit.toList = ds ++ [d] :=
      ⟨_, _, (List.dropLast_concat_getLast (by simp [he])).symm⟩
    have hcontrol : Escaped.isControl d = false := by
      refine eq_false_of_ne_true fun hc => ?_
      have := of_isAscii (p := fun c => !Escaped.isControl c || !isNameChar true c) (by decide)
        (isAscii_of_isControl hc)
      simp [hc, hname d (by simp [hd])] at this
    exact ⟨ds, d, hd, by simpa [Token.keepsEnd, hd, hcontrol] using hk⟩

-- The text of a token is read as the token, also if it is trimmed.
theorem lexes_trimmed (hg : startsGap (c :: cs) = false)
    (hl : lexeme multibyte c cs = ⟨.ok t, taken, rest⟩) (hr : t.isReadable []) (hk : t.keepsEnd) :
    Lexes (trimEnd t.text.toList) [t.withoutNul] [] := by
  have hreads := reads_of_lexeme (isBlank_of_not_startsGap hg) hl
  have htext : Lexes (t.text.toList ++ []) [t.withoutNul] [] := lexes_text hg hl (.inr .nil) hr
  rw [List.append_nil] at htext
  -- Only the text of a name may end in a blank.
  have hends {cs : List Char} {d : Char} (h : t.text.toList = cs ++ [d]) (hd : isBlank d = false) :
      Lexes (trimEnd t.text.toList) [t.withoutNul] [] := by
    rw [h] at htext ⊢
    rwa [trimEnd_concat hd]
  cases t
  case whitespace => cases hreads
  case string content =>
    refine @hends ('\x22' :: content.toList.flatMap Escaped.stringChar) '\x22' ?_ (by decide)
    simp [Token.text, Escaped.quoted, Escaped.quotedChars]
  case url target =>
    refine @hends ("url(".toList ++ Escaped.quotedChars target.toList) ')' ?_ (by decide)
    simp [Token.text, Escaped.quoted]
  case function name =>
    refine @hends (Escaped.identifierChars name.toList) '(' ?_ (by decide)
    simp [Token.text, Escaped.identifier]
  case identifier name =>
    obtain ⟨-, hn, -⟩ := hreads
    obtain ⟨z', hz⟩ := trims_identifierChars (clean_ne_nil hn) (toNat_clean_ne_zero name)
      (keepsEnd_clean hk)
    have htrim := hz.trimEnd []
    rw [← Token.text_withoutNul]
    simp only [Token.withoutNul, Token.text, Escaped.identifier, String.toList_ofList,
      List.nil_append] at htrim ⊢
    rw [htrim]
    exact lexes_trimmedIdentifier (isName_clean hn hr) hz
  case atKeyword name =>
    obtain ⟨-, hn, -⟩ := hreads
    obtain ⟨z', hz⟩ := trims_identifierChars (clean_ne_nil hn) (toNat_clean_ne_zero name)
      (keepsEnd_clean hk)
    have htrim := hz.trimEnd ['@']
    rw [← Token.text_withoutNul]
    simp only [Token.withoutNul, Token.text, Escaped.identifier, String.toList_append,
      String.toList_ofList, String.reduceToList] at htrim ⊢
    rw [htrim]
    exact lexes_trimmedAtKeyword (clean_ne_nil hn) (toNat_clean_ne_zero name) hz
  case hash name =>
    obtain ⟨-, hn, -⟩ := hreads
    obtain ⟨z', hz⟩ := trims_nameChars (clean_ne_nil hn) (toNat_clean_ne_zero name)
      (keepsEnd_clean hk)
    have htrim := hz.trimEnd ['#']
    rw [← Token.text_withoutNul]
    simp only [Token.withoutNul, Token.text, Escaped.name, String.toList_append,
      String.toList_ofList, String.reduceToList] at htrim ⊢
    rw [htrim]
    exact lexes_trimmedHash (clean_ne_nil hn) hz
  case number x u written =>
    obtain ⟨hs, behind, _, d, hn, -⟩ := hreads
    cases u
    case none =>
      obtain ⟨ds, e, he, hb⟩ := exists_concat_numeral hs hn
      exact @hends ds e (by simp [Token.text, he]) hb
    case some u =>
      obtain ⟨ds, e, he, hb⟩ := exists_concat_unit hr hk
      exact @hends (written.toList ++ ds) e (by simp [Token.text, he]) hb
  all_goals
    obtain ⟨hc, -, hsymbol, -⟩ := hreads
    simp only [isSymbol, Bool.and_eq_true, Bool.not_eq_true'] at hsymbol
    exact @hends [] c ((congrArg (·.text.toList) hc).trans (text_single c)) hsymbol.2

end Lexing
end Stylesheet
