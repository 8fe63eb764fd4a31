import Stylesheet.Proofs.Token.Pieces
/-!
Lexemes of a text that is followed by another. What is behind a semicolon or a closing brace does
not matter to the lexemes in front of that. Main statements: `lexeme_followed`, `gap_append`.
-/

namespace Stylesheet

-- A token that ends a statement or closes what it is in.
def Token.isClosing : Token → Bool
  | semicolon | closeBrace => true
  | _ => false

-- A token that is more than a mark.
def Token.hasContent : Token → Bool
  | identifier _ | function _ | atKeyword _ | hash _ | number .. | string _ | url _ => true
  | _ => false

namespace Lexing

variable {multibyte : Bool} {pending : Pending} {c quote : Char} {cs ds front rest : List Char}

def isClosing (c : Char) : Bool :=
  c == ';' || c == '}'

def hasClosing (cs : List Char) : Bool :=
  cs.any isClosing

theorem hasClosing_of_suffix (h : cs <:+ ds) (hc : hasClosing cs) : hasClosing ds := by
  obtain ⟨front, rfl⟩ := h
  simp only [hasClosing, List.any_append, Bool.or_eq_true] at hc ⊢
  exact .inr hc

theorem hasClosing_cons (h : isClosing c = false) : hasClosing (c :: cs) = hasClosing cs := by
  simp [hasClosing, h]

/-! ### Beginnings -/

theorem forall_isClosing {p : Char → Prop} (hs : p ';') (hb : p '}') (c : Char)
    (h : isClosing c) : p c := by
  simp only [isClosing, Bool.or_eq_true, beq_iff_eq] at h
  rcases h with rfl | rfl
  · exact hs
  · exact hb

theorem startsEscape_followed (h : hasClosing cs) : startsEscape (cs ++ ds) = startsEscape cs := by
  cases cs
  case nil => cases h
  case cons c cs =>
    by_cases hc : c = '\\'
    case neg => simp [startsEscape_cons hc]
    case pos =>
      subst hc
      cases cs
      case nil => cases h
      case cons => rfl

theorem startsDigit_followed (h : hasClosing cs) : startsDigit (cs ++ ds) = startsDigit cs := by
  cases cs
  case nil => cases h
  case cons => rfl

theorem startsIdentifier_followed (h : hasClosing cs) :
    startsIdentifier multibyte (cs ++ ds) = startsIdentifier multibyte cs := by
  cases cs
  case nil => cases h
  case cons c cs =>
    by_cases hc : c = '-'
    case neg =>
      have := @startsEscape_followed _ ds h
      simp_all [startsIdentifier]
    case pos =>
      subst hc
      replace h : hasClosing cs := h
      cases cs
      case nil => cases h
      case cons d cs =>
        have := @startsEscape_followed _ ds h
        by_cases hd : d = '-' <;> simp_all [startsIdentifier]

theorem startsUnsigned_followed (h : hasClosing cs) :
    startsUnsigned (cs ++ ds) = startsUnsigned cs := by
  cases cs
  case nil => cases h
  case cons c cs =>
    by_cases hc : c = '.'
    case neg => simp_all [startsUnsigned, startsDigit]
    case pos =>
      subst hc
      exact @startsDigit_followed cs ds h

theorem startsNumber_followed (h : hasClosing cs) : startsNumber (cs ++ ds) = startsNumber cs := by
  cases cs
  case nil => cases h
  case cons c cs =>
    by_cases hc : c = '+' ∨ c = '-'
    case neg =>
      have := @startsUnsigned_followed _ ds h
      simp_all [startsNumber]
    case pos =>
      have h : hasClosing cs := by rcases hc with rfl | rfl <;> exact h
      have := @startsUnsigned_followed _ ds h
      simp_all [startsNumber]

theorem startsName_followed (h : hasClosing cs) :
    startsName multibyte (cs ++ ds) = startsName multibyte cs := by
  cases cs
  case nil => cases h
  case cons c cs =>
    have := @startsEscape_followed _ ds h
    simp_all [startsName]

/-! ### Spans -/

-- A span of a text that is followed by another.
def Span.followed (s : Span) (ds : List Char) : Span :=
  (s.1, s.2 ++ ds)

theorem Span.followed_extend {s : Span} : (extend c s).followed ds = extend c (s.followed ds) :=
  rfl

theorem nameSpan_followed (h : hasClosing (nameSpan multibyte pending cs).2) :
    nameSpan multibyte pending (cs ++ ds) = (nameSpan multibyte pending cs).followed ds := by
  fun_induction nameSpan multibyte pending cs
  case case1 => cases h
  case case2 hp ih => simp [nameSpan, hp, ih h, Span.followed_extend]
  case case3 hp hc ih => simp [nameSpan, hp, hc, ih h, Span.followed_extend]
  case case4 c rest hp hc he ih =>
    have hrest : hasClosing (c :: rest) :=
      hasClosing_of_suffix (List.IsSuffix.trans ⟨_, nameSpan_append ..⟩ (List.suffix_cons ..)) h
    have hstarts : startsEscape (c :: (rest ++ ds)) := (startsEscape_followed hrest).trans he
    simp [nameSpan, hp, hc, hstarts, ih h, Span.followed_extend]
  case case5 c rest hp hc he =>
    have hstarts : startsEscape (c :: (rest ++ ds)) = startsEscape (c :: rest) :=
      startsEscape_followed h
    simp [nameSpan, hp, hc, hstarts, he, Span.followed]

theorem stringSpan_followed (h : hasClosing (stringSpan quote pending cs).2) :
    stringSpan quote pending (cs ++ ds) = (stringSpan quote pending cs).followed ds := by
  fun_induction stringSpan quote pending cs
  case case1 => cases h
  case case2 hp ih => simp [stringSpan, hp, ih h, Span.followed_extend]
  case case3 hp hc => simp [stringSpan, hp, hc, Span.followed]
  case case4 hp hc ih => simp [stringSpan, hp, hc, ih h, Span.followed_extend]

theorem targetSpan_followed (h : hasClosing (targetSpan pending cs).2) :
    targetSpan pending (cs ++ ds) = (targetSpan pending cs).followed ds := by
  fun_induction targetSpan pending cs
  case case1 => cases h
  case case2 hp ih => simp [targetSpan, hp, ih h, Span.followed_extend]
  case case3 hp hc => simp [targetSpan, hp, hc, Span.followed]
  case case4 rest hp hc he ih =>
    have hrest : hasClosing ('\\' :: rest) :=
      hasClosing_of_suffix (List.IsSuffix.trans ⟨_, targetSpan_append ..⟩ (List.suffix_cons ..)) h
    have hstarts : startsEscape ('\\' :: (rest ++ ds)) := (startsEscape_followed hrest).trans he
    simp [targetSpan, hp, hc, hstarts, ih h, Span.followed_extend]
  case case5 rest hp hc he =>
    have hstarts : startsEscape ('\\' :: (rest ++ ds)) = startsEscape ('\\' :: rest) :=
      startsEscape_followed h
    simp [targetSpan, hp, hc, hstarts, he, Span.followed]
  case case6 hp hc hb ih => simp [targetSpan, hp, hc, hb, ih h, Span.followed_extend]

theorem parenSpan_followed (h : hasClosing (parenSpan cs).2) :
    parenSpan (cs ++ ds) = (parenSpan cs).followed ds := by
  fun_induction parenSpan cs
  case case1 => cases h
  case case2 hc => simp [parenSpan, Span.followed]
  case case3 hc ih => simp [parenSpan, hc, ih h, Span.followed_extend]

theorem takeWhile_followed {p : Char → Bool} (hp : ∀ c, isClosing c → p c = false)
    (h : hasClosing cs) : (cs ++ ds).takeWhile p = cs.takeWhile p ∧
      (cs ++ ds).dropWhile p = cs.dropWhile p ++ ds ∧ hasClosing (cs.dropWhile p) := by
  induction cs
  case nil => cases h
  case cons c cs ih =>
    by_cases hc : p c
    case pos =>
      have := @hasClosing_cons c cs (by grind)
      simp_all
    case neg => simp [hc, h]

theorem blankSpan_followed (h : hasClosing cs) :
    blankSpan (cs ++ ds) = (blankSpan cs).followed ds ∧ hasClosing (blankSpan cs).2 := by
  have hp : ∀ c, isClosing c → Text.isBlank c = false := forall_isClosing (by decide) (by decide)
  obtain ⟨ht, hd, hr⟩ := @takeWhile_followed cs ds _ hp h
  exact ⟨by simp [blankSpan, Span.followed, ht, hd], hr⟩

theorem digitSpan_followed (h : hasClosing cs) :
    digitSpan (cs ++ ds) = (digitSpan cs).followed ds ∧ hasClosing (digitSpan cs).2 := by
  have hp : ∀ c, isClosing c → c.isDigit = false := forall_isClosing (by decide) (by decide)
  obtain ⟨ht, hd, hr⟩ := @takeWhile_followed cs ds _ hp h
  exact ⟨by simp [digitSpan, Span.followed, ht, hd], hr⟩

theorem signSpan_followed (h : hasClosing cs) :
    signSpan (cs ++ ds) = (signSpan cs).followed ds ∧ hasClosing (signSpan cs).2 := by
  cases cs
  case nil => cases h
  case cons c cs =>
    by_cases hc : c = '+' ∨ c = '-'
    case neg => simp_all [signSpan, Span.followed]
    case pos => rcases hc with rfl | rfl <;> exact ⟨rfl, h⟩

theorem fractionSpan_followed (h : hasClosing cs) :
    fractionSpan (cs ++ ds) = (fractionSpan cs).followed ds ∧ hasClosing (fractionSpan cs).2 := by
  cases cs
  case nil => cases h
  case cons c cs =>
    by_cases hc : c = '.'
    case neg => simp_all [fractionSpan, Span.followed]
    case pos =>
      subst hc
      replace h : hasClosing cs := h
      obtain ⟨hs, hr⟩ := @digitSpan_followed _ ds h
      by_cases hd : startsDigit cs
      · simp [fractionSpan, startsDigit_followed h, hd, hs, hr, extend, Span.followed]
      · simp [fractionSpan, startsDigit_followed h, hd, Span.followed, hasClosing_cons, h, isClosing]

theorem exponentSpan_followed (h : hasClosing cs) :
    exponentSpan (cs ++ ds) = (exponentSpan cs).followed ds ∧ hasClosing (exponentSpan cs).2 := by
  cases cs
  case nil => cases h
  case cons e cs =>
    by_cases he : e = 'e' ∨ e = 'E'
    case neg => simp_all [exponentSpan, Span.followed]
    case pos =>
      replace h : hasClosing cs := by rcases he with rfl | rfl <;> exact h
      obtain ⟨hsign, hsr⟩ := @signSpan_followed _ ds h
      obtain ⟨hdigit, hdr⟩ := @digitSpan_followed _ ds hsr
      have hstarts := @startsDigit_followed _ ds hsr
      have hsign' : signSpan (cs ++ ds) = ((signSpan cs).1, (signSpan cs).2 ++ ds) := hsign
      by_cases hd : startsDigit (signSpan cs).2
      · simp [exponentSpan, hsign', hstarts, hd, he, hdigit, hdr, Span.followed]
      · have hne : hasClosing (e :: cs) := hasClosing_of_suffix (List.suffix_cons ..) h
        simp [exponentSpan, hsign', hstarts, hd, hne, Span.followed]

theorem numeral_followed (h : hasClosing cs) :
    numeral (cs ++ ds) = (numeral cs).followed ds ∧ hasClosing (numeral cs).2 := by
  obtain ⟨hs, h⟩ := @signSpan_followed _ ds h
  obtain ⟨hd, h⟩ := @digitSpan_followed _ ds h
  obtain ⟨hf, h⟩ := @fractionSpan_followed _ ds h
  obtain ⟨he, h⟩ := @exponentSpan_followed _ ds h
  refine ⟨?_, h⟩
  simp only [numeral, hs, hd, hf, he, Span.followed]

/-! ### Lexemes -/

-- A lexeme of a text that is followed by another.
def Lexeme.followed (l : Lexeme) (ds : List Char) : Lexeme :=
  { l with rest := l.rest ++ ds }

theorem decoded_followed (token : String → Token) (written taken : List Char) :
    (Lexeme.decoded token written taken rest).followed ds =
      .decoded token written taken (rest ++ ds) := by
  unfold Lexeme.decoded
  split <;> rfl

theorem unit_followed (h : hasClosing (unit multibyte cs).2.2) :
    unit multibyte (cs ++ ds) = ((unit multibyte cs).1, (unit multibyte cs).2.followed ds) := by
  have hcs : hasClosing cs := hasClosing_of_suffix ⟨_, unit_append ..⟩ h
  cases cs
  case nil => cases hcs
  case cons c cs =>
    by_cases hc : c = '%'
    case pos => subst hc; rfl
    case neg =>
      have hstarts := @startsIdentifier_followed multibyte _ ds hcs
      by_cases hi : startsIdentifier multibyte (c :: cs)
      · have hspan : hasClosing (nameSpan multibyte .nothing (c :: cs)).2 := by
          simpa [unit, hc, hi] using h
        have hname := @nameSpan_followed multibyte .nothing _ ds hspan
        simp_all [unit, Span.followed]
      · simp_all [unit, Span.followed]

theorem number_followed (h : hasClosing (number multibyte cs).rest) :
    number multibyte (cs ++ ds) = (number multibyte cs).followed ds := by
  have hcs : hasClosing cs := hasClosing_of_suffix ⟨_, number_append ..⟩ h
  obtain ⟨hn, -⟩ := @numeral_followed _ ds hcs
  have hn' : numeral (cs ++ ds) = ((numeral cs).1, (numeral cs).2 ++ ds) := hn
  cases hd : Decimal.ofChars? (numeral cs).1
  case none => simp [number, hn', hd, Lexeme.faulty, Lexeme.followed]
  case some decimal =>
    have hrest : (number multibyte cs).rest = (unit multibyte (numeral cs).2).2.2 := by
      simp only [number, hd]
      split <;> rfl
    rw [hrest] at h
    simp only [number, hn', hd, unit_followed h]
    cases (unit multibyte (numeral cs).2).1 <;> cases decimal.toDouble? <;> rfl

theorem named_followed {token : String → Token} {mark : Char}
    (h : hasClosing (named multibyte token mark cs).rest) :
    named multibyte token mark (cs ++ ds) = (named multibyte token mark cs).followed ds := by
  rw [named, Lexeme.decoded_rest] at h
  simp [named, decoded_followed, nameSpan_followed h, Span.followed]

theorem quoted_followed (h : hasClosing (quoted quote cs).2.2) :
    quoted quote (cs ++ ds) = ((quoted quote cs).1, (quoted quote cs).2.followed ds) := by
  cases hs : (stringSpan quote .nothing cs).2
  case nil =>
    simp [quoted, hs, hasClosing] at h
  case cons c rest =>
    have hspan : hasClosing (stringSpan quote .nothing cs).2 := by
      by_cases hc : c = quote
      · refine hasClosing_of_suffix ?_ h
        simp [quoted, hs, hc]
      · simpa [quoted, hs, hc] using h
    have hspan' : (stringSpan quote .nothing (cs ++ ds)) =
        ((stringSpan quote .nothing cs).1, c :: (rest ++ ds)) := by
      rw [stringSpan_followed hspan, Span.followed, hs, List.cons_append]
    by_cases hc : c = quote <;> simp [quoted, hs, hspan', hc, Span.followed]

theorem string_followed (h : hasClosing (string quote cs).rest) :
    string quote (cs ++ ds) = (string quote cs).followed ds := by
  have hrest : (string quote cs).rest = (quoted quote cs).2.2 := by
    unfold string
    split
    · next hq => rw [Lexeme.decoded_rest, hq]
    · next hq => rw [hq]; rfl
  rw [hrest] at h
  have hquoted := @quoted_followed _ _ ds h
  unfold string
  rw [hquoted]
  obtain ⟨content, taken, rest⟩ := quoted quote cs
  cases content
  case none => rfl
  case some => exact (decoded_followed ..).symm

-- What is left by a lexeme is left of the text behind its front.
theorem suffix_of_front {l : Lexeme} (hf : front <+: l.taken) (ha : l.taken ++ l.rest = front ++ cs) :
    l.rest <:+ cs := by
  obtain ⟨taken, ht⟩ := hf
  rw [← ht, List.append_assoc, List.append_cancel_left_eq] at ha
  exact ⟨taken, ha⟩

theorem malformedUrl_followed {fault : LexicalFault}
    (h : hasClosing (malformedUrl fault front cs).rest) :
    malformedUrl fault front (cs ++ ds) = (malformedUrl fault front cs).followed ds := by
  simp only [malformedUrl, parenSpan_followed h]
  rfl

theorem hasClosing_of_malformedUrl {fault : LexicalFault}
    (h : hasClosing (malformedUrl fault front cs).rest) : hasClosing cs :=
  hasClosing_of_suffix ⟨_, parenSpan_append cs⟩ h

theorem quotedUrl_followed (h : hasClosing (quotedUrl front quote cs).rest) :
    quotedUrl front quote (cs ++ ds) = (quotedUrl front quote cs).followed ds := by
  have hquoted := @quoted_followed quote cs ds
  cases hq : quoted quote cs
  case mk content span =>
    obtain ⟨taken, rest⟩ := span
    rw [hq] at hquoted
    cases content
    case none =>
      have hrest : hasClosing rest := by simpa [quotedUrl, hq] using h
      simp [quotedUrl, hq, hquoted hrest, Span.followed, Lexeme.followed]
    case some content =>
      have happend := blankSpan_append rest
      cases hb : blankSpan rest
      case mk blanks behind =>
        rw [hb] at happend
        cases behind
        case nil => simp [quotedUrl, hq, hb, Lexeme.faulty, hasClosing] at h
        case cons c behind =>
          have hbehind : hasClosing (c :: behind) := by
            by_cases hc : c = ')'
            · simp only [quotedUrl, hq, hb, hc, if_true, Lexeme.decoded_rest] at h
              exact hasClosing_of_suffix (List.suffix_cons ..) h
            · simp only [quotedUrl, hq, hb, hc, if_false] at h
              exact hasClosing_of_malformedUrl h
          have hrest : hasClosing rest := hasClosing_of_suffix ⟨_, happend⟩ hbehind
          have hblank := (@blankSpan_followed _ ds hrest).1
          simp only [hb, Span.followed, List.cons_append] at hblank
          by_cases hc : c = ')'
          · simp [quotedUrl, hq, hquoted hrest, Span.followed, hb, hblank, hc, decoded_followed]
          · simp only [quotedUrl, hq, hb, hc, if_false] at h
            simpa [quotedUrl, hq, hquoted hrest, Span.followed, hb, hblank, hc] using
              malformedUrl_followed h

theorem bareUrl_followed (h : hasClosing (bareUrl front cs).rest) :
    bareUrl front (cs ++ ds) = (bareUrl front cs).followed ds := by
  have htarget := @targetSpan_followed .nothing cs ds
  cases ht : targetSpan .nothing cs
  case mk target rest =>
    rw [ht] at htarget
    have happend := blankSpan_append rest
    cases hb : blankSpan rest
    case mk blanks behind =>
      rw [hb] at happend
      have hrest : hasClosing rest := by
        simp only [bareUrl, ht, hb] at h
        split at h
        · cases h
        · rw [Lexeme.decoded_rest] at h
          exact hasClosing_of_suffix (List.IsSuffix.trans (List.suffix_cons ..) ⟨_, happend⟩) h
        · exact hasClosing_of_malformedUrl h
        · exact hasClosing_of_malformedUrl h
      obtain ⟨hblank, hbehind⟩ := @blankSpan_followed _ ds hrest
      simp only [hb, Span.followed] at hblank hbehind
      replace htarget := htarget hrest
      cases rest
      case nil => cases hrest
      case cons c rest =>
        cases behind
        case nil => cases hbehind
        case cons d behind =>
          simp only [Span.followed, List.cons_append] at htarget hblank
          by_cases hd : d = ')'
          · subst hd
            simp [bareUrl, ht, htarget, hb, hblank, decoded_followed]
          · by_cases hc : c = '\\'
            · subst hc
              have hm : hasClosing (malformedUrl .invalidEscapeInUrl (front ++ target)
                  ('\\' :: rest)).rest := by
                simpa [bareUrl, ht, hb, hd] using h
              simpa [bareUrl, ht, htarget, hb, hblank, hd] using malformedUrl_followed hm
            · have hm : hasClosing (malformedUrl .malformedUrl (front ++ target) (c :: rest)).rest := by
                simpa [bareUrl, ht, hb, hd, hc] using h
              simpa [bareUrl, ht, htarget, hb, hblank, hd, hc] using malformedUrl_followed hm

theorem url_followed (h : hasClosing (url front cs).rest) :
    url front (cs ++ ds) = (url front cs).followed ds := by
  have happend := blankSpan_append cs
  cases hb : blankSpan cs
  case mk blanks behind =>
    rw [hb] at happend
    cases behind
    case nil => simp [url, hb, bareUrl, targetSpan, Lexeme.faulty, hasClosing] at h
    case cons c behind =>
      have hbehind : hasClosing (c :: behind) := by
        by_cases hc : Selector.isQuote c
        · simp only [url, hb, hc, if_true] at h
          exact hasClosing_of_suffix (suffix_of_front (quotedUrl_front ..) (quotedUrl_append ..)) h
        · simp only [url, hb, hc, if_false, Bool.false_eq_true] at h
          exact hasClosing_of_suffix (suffix_of_front (bareUrl_front ..) (bareUrl_append ..)) h
      have hrest : hasClosing cs := hasClosing_of_suffix ⟨_, happend⟩ hbehind
      have hblank := (@blankSpan_followed _ ds hrest).1
      simp only [hb, Span.followed, List.cons_append] at hblank
      by_cases hc : Selector.isQuote c
      · simp only [url, hb, hc, if_true] at h
        simpa [url, hb, hblank, hc] using quotedUrl_followed h
      · simp only [url, hb, hc, if_false, Bool.false_eq_true] at h
        simpa [url, hb, hblank, hc] using bareUrl_followed h

theorem identifierLike_followed (h : hasClosing (identifierLike multibyte cs).rest) :
    identifierLike multibyte (cs ++ ds) = (identifierLike multibyte cs).followed ds := by
  have hspan : hasClosing (nameSpan multibyte .nothing cs).2 := by
    simp only [identifierLike] at h
    split at h
    · next rest hn =>
      rw [hn]
      refine hasClosing_of_suffix (List.suffix_cons ..) ?_
      split at h
      · exact h
      · split at h
        · exact hasClosing_of_suffix (suffix_of_front (url_front ..) (url_append ..)) h
        · exact h
    · rwa [Lexeme.decoded_rest] at h
  have hname := @nameSpan_followed multibyte .nothing _ ds hspan
  cases hn : nameSpan multibyte .nothing cs
  case mk written rest =>
    simp only [hn, Span.followed] at hname hspan
    cases rest
    case nil => cases hspan
    case cons c rest =>
      by_cases hc : c = '('
      case neg => simp [identifierLike, hn, hname, hc, decoded_followed]
      case pos =>
        subst hc
        cases hu : unescape .nothing written
        case error => simp [identifierLike, hn, hname, hu, Lexeme.faulty, Lexeme.followed]
        case ok word =>
          by_cases hw : Text.sameWord (String.ofList word) "url"
          · have hurl : hasClosing (url (written ++ ['(']) rest).rest := by
              simpa [identifierLike, hn, hu, hw] using h
            simpa [identifierLike, hn, hname, hu, hw] using url_followed hurl
          · simp [identifierLike, hn, hname, hu, hw, Lexeme.followed]

theorem lexeme_followed (h : hasClosing (lexeme multibyte c cs).rest) :
    lexeme multibyte c (cs ++ ds) = (lexeme multibyte c cs).followed ds := by
  have hcs : hasClosing (c :: cs) := hasClosing_of_suffix ⟨_, lexeme_append ..⟩ h
  have hhash : (c = '#' && startsName multibyte (cs ++ ds)) = (c = '#' && startsName multibyte cs) := by
    by_cases hc : c = '#'
    · subst hc
      rw [@startsName_followed multibyte cs ds hcs]
    · simp [hc]
  have hat : (c = '@' && startsIdentifier multibyte (cs ++ ds)) =
      (c = '@' && startsIdentifier multibyte cs) := by
    by_cases hc : c = '@'
    · subst hc
      rw [@startsIdentifier_followed multibyte cs ds hcs]
    · simp [hc]
  have hnumber : startsNumber (c :: (cs ++ ds)) = startsNumber (c :: cs) := startsNumber_followed hcs
  have hidentifier : startsIdentifier multibyte (c :: (cs ++ ds)) =
      startsIdentifier multibyte (c :: cs) := startsIdentifier_followed hcs
  revert h
  unfold lexeme
  rw [hhash, hat, hnumber, hidentifier]
  split
  · exact string_followed
  split
  · exact named_followed
  split
  · exact named_followed
  split
  · exact @number_followed multibyte (c :: cs) ds
  split
  · exact @identifierLike_followed multibyte (c :: cs) ds
  split
  · exact fun _ => rfl
  split <;> exact fun _ => rfl

/-! ### What closes a statement -/

theorem lexeme_closing (h : isClosing c) : lexeme multibyte c cs = ⟨.ok (single c), [c], cs⟩ := by
  refine forall_isClosing (p := fun c => lexeme multibyte c cs = ⟨.ok (single c), [c], cs⟩) ?_ ?_ c h
  · rfl
  · rfl

theorem hasContent_decoded {token : String → Token} {written taken : List Char} {t : Token}
    (hn : ∀ s, (token s).hasContent) (h : (Lexeme.decoded token written taken rest).result = .ok t) :
    t.hasContent := by
  unfold Lexeme.decoded at h
  split at h
  · cases h
    exact hn _
  · cases h

theorem hasContent_string {t : Token} (h : (string quote cs).result = .ok t) : t.hasContent := by
  unfold string at h
  split at h
  · exact hasContent_decoded (fun _ => rfl) h
  · cases h

theorem hasContent_number {t : Token} (h : (number multibyte cs).result = .ok t) :
    t.hasContent := by
  simp only [number] at h
  split at h
  · cases h
  · split at h
    · cases h
    · cases h
    · cases h
      rfl

theorem hasContent_bareUrl {t : Token} (h : (bareUrl front cs).result = .ok t) :
    t.hasContent := by
  simp only [bareUrl] at h
  split at h
  · cases h
  · exact hasContent_decoded (fun _ => rfl) h
  · cases h
  · cases h

theorem hasContent_url {t : Token} (h : (url front cs).result = .ok t) : t.hasContent := by
  simp only [url, quotedUrl] at h
  split at h
  · exact hasContent_bareUrl h
  · split at h
    · split at h
      · cases h
      · split at h
        · cases h
        · split at h
          · exact hasContent_decoded (fun _ => rfl) h
          · cases h
    · exact hasContent_bareUrl h

theorem hasContent_identifierLike {t : Token}
    (h : (identifierLike multibyte cs).result = .ok t) : t.hasContent := by
  simp only [identifierLike] at h
  split at h
  · split at h
    · cases h
    · split at h
      · exact hasContent_url h
      · cases h
        rfl
  · exact hasContent_decoded (fun _ => rfl) h

-- A token without content is what its character is by itself.
theorem hasContent_or_eq_single {t : Token} (h : (lexeme multibyte c cs).result = .ok t) :
    t.hasContent ∨ t = single c := by
  revert h
  fun_cases lexeme multibyte c cs
  case case1 => exact fun h => .inl (hasContent_string h)
  case case2 | case3 => exact fun h => .inl (hasContent_decoded (fun _ => rfl) h)
  case case4 => exact fun h => .inl (hasContent_number h)
  case case5 => exact fun h => .inl (hasContent_identifierLike h)
  case case7 => exact fun h => .inr (Except.ok.inj h).symm
  case case6 | case8 => exact fun h => by cases h

theorem isClosing_of_lexeme {t : Token} (h : (lexeme multibyte c cs).result = .ok t)
    (ht : t.isClosing) : isClosing c := by
  rcases hasContent_or_eq_single h with hc | rfl
  · cases t <;> simp_all [Token.hasContent, Token.isClosing]
  · unfold single at ht
    split at ht <;> first | rfl | cases ht

theorem not_isWhitespace_of_lexeme {t : Token} (h : (lexeme multibyte c cs).result = .ok t) :
    t.isWhitespace = false := by
  rcases hasContent_or_eq_single h with hc | rfl
  · cases t <;> first | rfl | cases hc
  · unfold single
    split <;> rfl

/-! ### Gaps -/

variable {blank : Bool} {comment : Option Position} {p q : Position}

theorem not_isBlank_slash : Text.isBlank '/' = false := by
  decide

-- What begins no comment still begins none, unless it is a slash at the end.
theorem not_comment_followed (h : ∀ es, c = '/' → rest = '*' :: es → False)
    (hr : c = '/' → rest ≠ []) (es : List Char) : c = '/' → rest ++ ds = '*' :: es → False := by
  intro hc he
  cases rest
  case nil => exact hr hc rfl
  case cons d rest =>
    simp only [List.cons_append, List.cons.injEq] at he
    exact h rest hc (by rw [he.1])

theorem not_commentEnd_followed (h : ∀ es, c = '*' → rest = '/' :: es → False)
    (hr : rest ≠ []) (es : List Char) : c = '*' → rest ++ ds = '/' :: es → False := by
  intro hc he
  cases rest
  case nil => exact hr rfl
  case cons d rest =>
    simp only [List.cons_append, List.cons.injEq] at he
    exact h rest hc (by rw [he.1])

-- The gap in front of a lexeme is the same if another text follows, unless the lexeme then begins
-- a comment.
theorem gap_append {found : Bool} (h : gap blank comment p cs = ⟨.ok found, c :: rest, q⟩)
    (hs : startsGap (c :: (rest ++ ds)) = false) :
    gap blank comment p (cs ++ ds) = ⟨.ok found, c :: (rest ++ ds), q⟩ := by
  fun_induction gap blank comment p cs
  case case1 ih => simpa [gap] using ih h
  case case2 c rest hs hb ih =>
    rw [List.cons_append, gap, if_pos hb, ih h]
    exact not_comment_followed hs (by rintro rfl; cases not_isBlank_slash.symm.trans hb)
  case case3 hb =>
    cases h
    rw [List.cons_append, gap, if_neg hb]
    rintro es rfl he
    simp [he, startsGap] at hs
  case case4 => cases h
  case case5 ih => simpa [gap] using ih h
  case case6 c rest hs ih =>
    rw [List.cons_append, gap, ih h]
    refine not_commentEnd_followed hs ?_
    rintro rfl
    simp [gap] at h
  case case7 => cases h

theorem startsGap_followed (h : hasClosing cs) : startsGap (cs ++ ds) = startsGap cs := by
  cases cs
  case nil => cases h
  case cons c cs =>
    by_cases hc : c = '/'
    case neg => unfold startsGap; split <;> simp_all
    case pos =>
      subst hc
      cases cs
      case nil => cases h
      case cons d cs => by_cases hd : d = '*' <;> simp_all [startsGap]

-- Behind a text of nothing but white space and comments, the gap goes on.
theorem gap_gap {found : Bool} (h : gap blank comment p cs = ⟨.ok found, [], q⟩) :
    gap blank comment p (cs ++ ds) = gap found none q ds := by
  fun_induction gap blank comment p cs
  case case1 ih => simpa [gap] using ih h
  case case2 c rest hs hb ih =>
    rw [List.cons_append, gap, if_pos hb, ih h]
    exact not_comment_followed hs (by rintro rfl; cases not_isBlank_slash.symm.trans hb)
  case case3 => cases h
  case case4 =>
    cases h
    rfl
  case case5 ih => simpa [gap] using ih h
  case case6 c rest hs ih =>
    rw [List.cons_append, gap, ih h]
    refine not_commentEnd_followed hs ?_
    rintro rfl
    simp [gap] at h
  case case7 => cases h

-- A gap is taken whole.
theorem startsGap_gap {found : Bool} (h : (gap blank comment p cs).result = .ok found) :
    startsGap (gap blank comment p cs).rest = false := by
  fun_induction gap blank comment p cs
  case case1 ih | case2 ih | case5 ih | case6 ih => exact ih h
  case case3 c rest hs hb =>
    unfold startsGap
    split
    · next he =>
      cases he
      exact absurd rfl (hs _ rfl)
    · next he =>
      cases he
      simpa using hb
    · rfl
  case case4 => rfl
  case case7 => cases h

-- White space is only found behind the beginning of a gap.
theorem startsGap_of_gap (h : (gap false none p cs).result ≠ .ok false) : startsGap cs := by
  refine Bool.of_not_eq_false fun hs => h ?_
  rw [Lexes.gap_of_not_startsGap hs]

-- A comment that does not end takes the whole text.
theorem gap_error {start : Position} (h : (gap blank comment p cs).result = .error start) :
    (gap blank comment p cs).rest = [] := by
  fun_induction gap blank comment p cs
  case case1 ih | case2 ih | case5 ih | case6 ih => exact ih h
  case case3 | case4 => cases h
  case case7 => rfl

-- Where a gap begins does not matter to what it is.
theorem gap_at {comment' : Option Position} {p' : Position}
    (h : comment'.isSome = comment.isSome) :
    (gap blank comment' p' cs).rest = (gap blank comment p cs).rest ∧
      (gap blank comment' p' cs).result.toOption = (gap blank comment p cs).result.toOption := by
  fun_induction gap blank comment p cs generalizing comment' p'
  case case1 ih =>
    obtain rfl : comment' = none := by simpa using h
    simp only [gap]
    exact ih rfl
  case case2 c rest hs hb ih =>
    obtain rfl : comment' = none := by simpa using h
    rw [gap, if_pos hb]
    · exact ih rfl
    · exact hs
  case case3 c rest hs hb =>
    obtain rfl : comment' = none := by simpa using h
    rw [gap, if_neg hb]
    · exact ⟨rfl, rfl⟩
    · exact hs
  case case4 =>
    obtain rfl : comment' = none := by simpa using h
    exact ⟨rfl, rfl⟩
  case case5 ih =>
    obtain ⟨start, rfl⟩ := Option.isSome_iff_exists.mp h
    simp only [gap]
    exact ih rfl
  case case6 c rest hs ih =>
    obtain ⟨start, rfl⟩ := Option.isSome_iff_exists.mp h
    rw [gap]
    · exact ih rfl
    · exact hs
  case case7 =>
    obtain ⟨start, rfl⟩ := Option.isSome_iff_exists.mp h
    exact ⟨rfl, rfl⟩

theorem gap_ok_at {found : Bool} (p' : Position)
    (h : gap blank none p cs = ⟨.ok found, rest, q⟩) :
    ∃ q', gap blank none p' cs = ⟨.ok found, rest, q'⟩ := by
  obtain ⟨hrest, hresult⟩ := @gap_at cs blank none p none p' rfl
  cases hg : gap blank none p' cs
  case mk result rest' q' =>
    rw [h, hg] at hrest hresult
    obtain rfl : rest' = rest := hrest
    cases result
    case error => cases hresult
    case ok found' =>
      obtain rfl : found' = found := Option.some.inj hresult
      exact ⟨q', rfl⟩

theorem gap_error_at {start : Position} (p' : Position)
    (h : gap blank none p cs = ⟨.error start, rest, q⟩) :
    ∃ start' q', gap blank none p' cs = ⟨.error start', rest, q'⟩ := by
  obtain ⟨hrest, hresult⟩ := @gap_at cs blank none p none p' rfl
  cases hg : gap blank none p' cs
  case mk result rest' q' =>
    rw [h, hg] at hrest hresult
    obtain rfl : rest' = rest := hrest
    cases result
    case error start' => exact ⟨start', q', rfl⟩
    case ok => cases hresult

-- White space in front of a gap does not matter to what is behind it.
theorem gap_blank {blank' : Bool} :
    (gap blank' comment p cs).rest = (gap blank comment p cs).rest ∧
      (gap blank' comment p cs).result.toOption.isSome =
        (gap blank comment p cs).result.toOption.isSome := by
  fun_induction gap blank comment p cs
  case case1 ih => simpa only [gap] using ih
  case case2 c rest hs hb ih =>
    rw [gap, if_pos hb]
    · exact ⟨rfl, rfl⟩
    · exact hs
  case case3 c rest hs hb =>
    rw [gap, if_neg hb]
    · exact ⟨rfl, rfl⟩
    · exact hs
  case case4 => exact ⟨rfl, rfl⟩
  case case5 ih => simpa only [gap] using ih
  case case6 c rest hs ih =>
    rw [gap]
    · exact ih
    · exact hs
  case case7 => exact ⟨rfl, rfl⟩

end Lexing
end Stylesheet
