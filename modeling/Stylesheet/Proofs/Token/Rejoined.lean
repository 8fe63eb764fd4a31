import Mathlib.Data.List.Basic
import Stylesheet.Proofs.Token.Trimmed
import Stylesheet.Proofs.Token.WellFormed
/-!
The texts of tokens, one behind the other. White space is one blank and comments are left out; so
the tokens are read back unless nothing but a comment kept two of them apart. Main statement:
`Cursor.exists_lex_texts`.
-/

namespace Stylesheet

-- A token where the lexer finds it.
structure Found where
  token : Token
  -- Whether a comment is directly in front of it, and no white space.
  commented : Bool
deriving DecidableEq

namespace Found

def isWhitespace (f : Found) : Bool :=
  f.token.isWhitespace

def texts (fs : List Found) : List Char :=
  fs.flatMap (·.token.text.toList)

-- Whether the texts of tokens are read as the tokens.
def areReadable : List Found → Bool
  | [] => true
  | [f] => f.token.isReadable [] && f.token.keepsEnd
  | f :: g :: fs => f.token.isReadable (texts (g :: fs)) &&
      (!g.commented || f.token.isSealed || g.token.isForeign) && areReadable (g :: fs)

-- The tokens without white space at the ends.
def strip (fs : List Found) : List Found :=
  ((fs.dropWhile isWhitespace).reverse.dropWhile isWhitespace).reverse

def trimmedTexts (fs : List Found) : List Char :=
  Text.trimEnd (texts fs)

end Found

namespace Cursor

open Lexing

variable {multibyte : Bool} {cs ds rest : List Char} {p q : Position}

-- The tokens of a text.
def found (multibyte : Bool) (c : Cursor) : List Found :=
  match _h : c.scan multibyte with
  | (none, _) => []
  | (some (.error _), c') => c'.found multibyte
  | (some (.ok t), c') => ⟨t.token, startsGap c.rest && !t.token.isWhitespace⟩ :: c'.found multibyte
termination_by c.rest.length
decreasing_by all_goals exact scan_length_lt _h

theorem found_of_scan_none {c c' : Cursor} (h : c.scan multibyte = (none, c')) :
    c.found multibyte = [] := by
  rw [found]
  split <;> simp_all

theorem found_of_scan_ok {c c' : Cursor} {t : Placed}
    (h : c.scan multibyte = (some (.ok t), c')) :
    c.found multibyte =
      ⟨t.token, startsGap c.rest && !t.token.isWhitespace⟩ :: c'.found multibyte := by
  rw [found]
  split <;> simp_all

-- They are what the lexer makes of the text, malformed tokens left out.
theorem map_token_found (c : Cursor) :
    (c.found multibyte).map Found.token = tokens (c.lex multibyte).1 := by
  fun_induction found multibyte c with
  | case1 c c' h => rw [lex_of_scan_none h]; rfl
  | case2 c d c' h ih => rw [lex_of_scan_some h, ih]; rfl
  | case3 c t c' h ih => rw [lex_of_scan_some h, List.map_cons, ih]; rfl

-- White space as it is found, if there is any.
def foundBlanks (blank : Bool) : List Found :=
  if blank then [⟨.whitespace, false⟩] else []

theorem found_nil : found multibyte ⟨[], p⟩ = [] :=
  @found_of_scan_none multibyte ⟨[], p⟩ ⟨[], p⟩ rfl

theorem found_of_gap_nil {blank : Bool} (h : gap false none p cs = ⟨.ok blank, [], q⟩) :
    found multibyte ⟨cs, p⟩ = foundBlanks blank := by
  cases blank
  case false =>
    have hscan : scan multibyte ⟨cs, p⟩ = (none, ⟨[], q⟩) := by simp only [scan, h]
    rw [found_of_scan_none hscan]
    rfl
  case true =>
    have hscan : scan multibyte ⟨cs, p⟩ = (some (.ok ⟨.whitespace, p⟩), ⟨[], q⟩) := by
      simp only [scan, h]
    rw [found_of_scan_ok hscan, found_nil]
    simp [foundBlanks, Token.isWhitespace]

theorem found_of_lexeme {blank : Bool} {d : Char} {taken : List Char} {t : Token}
    (hg : gap false none p cs = ⟨.ok blank, d :: rest, q⟩)
    (hl : lexeme multibyte d rest = ⟨.ok t, taken, ds⟩) :
    found multibyte ⟨cs, p⟩ = foundBlanks blank ++ ⟨t, startsGap cs && !blank⟩ ::
      found multibyte ⟨ds, q.after taken⟩ := by
  have ht : t.isWhitespace = false := not_isWhitespace_of_lexeme (by rw [hl])
  have hlexeme {cs : List Char} {p : Position} (h : gap false none p cs = ⟨.ok false, d :: rest, q⟩) :
      scan multibyte ⟨cs, p⟩ = (some (.ok ⟨t, q⟩), ⟨ds, q.after taken⟩) := by
    simp only [scan, h, hl, place]
  cases blank
  case false => simp [found_of_scan_ok (hlexeme hg), ht, foundBlanks]
  case true =>
    have hgap := @startsGap_gap cs false none p true (by rw [hg])
    rw [hg] at hgap
    have hscan : scan multibyte ⟨cs, p⟩ = (some (.ok ⟨.whitespace, p⟩), ⟨d :: rest, q⟩) := by
      simp only [scan, hg]
    rw [found_of_scan_ok hscan, found_of_scan_ok (hlexeme (Lexes.gap_of_not_startsGap hgap))]
    simp [foundBlanks, Token.isWhitespace, hgap]

end Cursor

namespace Found

open Lexing

variable {multibyte : Bool} {c : Char} {cs ds rest taken : List Char} {f g : Found} {fs : List Found}

theorem isReadable_of_append {t : Token} (h : t.isReadable (cs ++ ds)) : t.isReadable cs := by
  cases t
  case number x u written =>
    cases u
    case none => rfl
    case some u =>
      simp only [Token.isReadable, ← List.append_assoc, Bool.or_eq_true, Bool.and_eq_true,
        Bool.not_eq_true'] at h ⊢
      refine h.imp_right (And.imp_right (Or.imp_right fun h => ?_))
      refine eq_false_of_ne_true fun he => ?_
      rw [startsExponent_append_of he] at h
      cases h
  all_goals exact h

theorem trimmedTexts_singleton : trimmedTexts [f] = Text.trimEnd f.token.text.toList := by
  simp [trimmedTexts, texts]

theorem trimmedTexts_cons (h : trimmedTexts fs ≠ []) :
    trimmedTexts (f :: fs) = f.token.text.toList ++ trimmedTexts fs := by
  rw [trimmedTexts, texts, List.flatMap_cons]
  exact Text.trimEnd_append h

theorem areReadable_cons (h : areReadable (f :: g :: fs)) :
    f.token.isReadable (trimmedTexts (g :: fs)) ∧
      (g.commented = false ∨ f.token.isSealed ∨ g.token.isForeign) ∧ areReadable (g :: fs) := by
  simp only [areReadable, Bool.and_eq_true, Bool.or_eq_true, Bool.not_eq_true'] at h
  obtain ⟨⟨hr, hc⟩, hrest⟩ := h
  obtain ⟨blanks, htexts, -⟩ := Text.exists_trimEnd (texts (g :: fs))
  rw [htexts] at hr
  exact ⟨isReadable_of_append hr, or_assoc.mp hc, hrest⟩

theorem areReadable_of_cons (h : areReadable (f :: fs)) : areReadable fs := by
  cases fs
  case nil => rfl
  case cons => exact (areReadable_cons h).2.2

theorem isMute_of_isForeign {t : Token} (h : t.isForeign) (hg : startsGap (c :: cs) = false)
    (hl : lexeme multibyte c cs = ⟨.ok t.withoutNul, taken, rest⟩) : isMute c := by
  have hreads := reads_of_lexeme (isBlank_of_not_startsGap hg) hl
  cases t
  case string => exact isMute_of_isQuote hreads
  case delimiter d =>
    obtain ⟨hc, -⟩ := hreads
    simp only [Token.isForeign, Bool.and_eq_true] at h
    have hc : Token.delimiter d = single c := hc
    have htext := (congrArg (·.text.toList) hc).trans (text_single c)
    obtain rfl : d = c := by simpa [Token.text, Char.toString] using htext
    exact h.2
  case colon | semicolon | comma | slash | openBrace | closeBrace | closeParen =>
    obtain ⟨hc, -⟩ := hreads
    have htext := (congrArg (·.text.toList) hc).trans (text_single c)
    obtain rfl := (List.cons.inj htext).1
    decide
  all_goals cases h

theorem withoutNul_ne_whitespace {t : Token} (h : t.isWhitespace = false) :
    t.withoutNul ≠ .whitespace := by
  cases t
  case whitespace => cases h
  case number x u written => cases u <;> exact Token.noConfusion
  all_goals exact Token.noConfusion

theorem ne_nil_of_lexes {t : Token} {ts : List Token} (h : Lexes cs (t :: ts) rest) : cs ≠ [] := by
  cases h
  case blank hn _ _ _ => exact List.append_ne_nil_of_left_ne_nil hn _
  case lexeme => exact List.cons_ne_nil _ _

-- No text of a token has a line end of another kind.
theorem isUnified_text {t : Token} (hb : Text.isBlank c = false)
    (hl : lexeme multibyte c cs = ⟨.ok t, taken, rest⟩) (hr : t.isReadable ds) :
    Text.isUnified t.text.toList := by
  have hreads := reads_of_lexeme hb hl
  have hunified {p : Char → Bool} (hp : ∀ c ∈ ['\r', '\x0c'], p c = false) {cs : List Char}
      (h : ∀ c ∈ cs, p c) : Text.isUnified cs := by
    simp only [Text.isUnified, List.all_eq_true, Bool.and_eq_true, bne_iff_ne]
    refine fun c hc => ⟨?_, ?_⟩
    all_goals
      rintro rfl
      have := h _ hc
      simp [hp] at this
  have hparen (c : Char) (hc : c ∈ ['(', ')']) : Text.isUnified [c] :=
    (by decide : ∀ c ∈ ['(', ')'], Text.isUnified [c]) c hc
  cases t
  case whitespace => cases hreads
  case identifier name =>
    simp [Token.text, Text.Escaped.identifier, Text.isUnified_identifierChars]
  case function name =>
    simp [Token.text, Text.Escaped.identifier, Text.isUnified_append,
      Text.isUnified_identifierChars, hparen]
  case atKeyword name =>
    simp [Token.text, Text.Escaped.identifier, Text.isUnified_cons, Text.isUnified_identifierChars]
  case hash name =>
    simp [Token.text, Text.Escaped.name, Text.isUnified_cons, Text.isUnified_nameChars]
  case string content => simp [Token.text, Text.Escaped.quoted, Text.isUnified_quotedChars]
  case url target =>
    simp [Token.text, Text.Escaped.quoted, Text.isUnified_append, Text.isUnified_cons,
      Text.isUnified_quotedChars, hparen]
  case number x u written =>
    obtain ⟨hs, behind, _, d, hn, -⟩ := hreads
    rw [Token.text, String.toList_append, Text.isUnified_append]
    refine ⟨hunified (p := fun c => isNumeric c || isExponentLetter c) (by decide) fun c hc => ?_, ?_⟩
    · simpa using of_mem_numeral hn c hc
    · cases u
      case none => rfl
      case some u =>
        simp only [Token.isReadable, Bool.or_eq_true, beq_iff_eq, Bool.and_eq_true,
          List.all_eq_true] at hr
        obtain rfl | ⟨⟨hname, -⟩, -⟩ := hr
        · rfl
        · exact hunified (p := isNameChar true) (by decide) hname
  all_goals
    obtain ⟨hc, -, hsymbol, -⟩ := hreads
    rw [show _ = [c] from (congrArg (·.text.toList) hc).trans (text_single c)]
    exact hunified (p := isSymbol) (by decide) (by simpa using hsymbol)

-- The texts of some tokens in front of which the lexer stands, and the text that it stands in front
-- of: the texts are read as the tokens, and go on as the text does.
structure Rejoins (multibyte : Bool) (cs : List Char) (fs : List Found) : Prop where
  lexes : Lexes (trimmedTexts fs) (fs.map (·.token.withoutNul)) []
  echoes : (∀ f ∈ fs.head?, f.commented = false ∨ f.token.isForeign) →
    Echoes multibyte cs (trimmedTexts fs)
  unified : Text.isUnified (texts fs)

theorem rejoins_nil : Rejoins multibyte cs [] where
  lexes := .done
  echoes _ := .nil
  unified := rfl

-- One token more.
theorem rejoins_cons (hg : startsGap (c :: cs) = false)
    (hl : lexeme multibyte c cs = ⟨.ok f.token, taken, rest⟩) (hr : areReadable (f :: fs))
    (h : Rejoins multibyte rest fs) (hc : f.commented = false → ds = c :: cs) :
    Rejoins multibyte ds (f :: fs) := by
  have ht := withoutNul_ne_whitespace (not_isWhitespace_of_lexeme (t := f.token) (by rw [hl]))
  -- The text of the token, and what is behind it.
  obtain ⟨behind, htext, hsingle, hbehind⟩ : ∃ behind,
      Lexes (trimmedTexts (f :: fs)) [f.token.withoutNul] behind ∧
      (f.token.isSealed ∨ Echoes multibyte rest behind) ∧
      Lexes behind (fs.map (·.token.withoutNul)) [] := by
    cases fs
    case nil =>
      simp only [areReadable, Bool.and_eq_true] at hr
      rw [trimmedTexts_singleton]
      exact ⟨[], lexes_trimmed hg hl hr.1 hr.2, .inr .nil, .done⟩
    case cons g fs =>
      obtain ⟨hr, hc, -⟩ := areReadable_cons hr
      have hsealed : f.token.isSealed ∨ Echoes multibyte rest (trimmedTexts (g :: fs)) := by
        by_cases hs : f.token.isSealed
        · exact .inl hs
        · refine .inr (h.echoes fun g' hg' => ?_)
          obtain rfl : g = g' := by simpa using hg'
          exact hc.imp_right (·.resolve_left hs)
      rw [trimmedTexts_cons (ne_nil_of_lexes h.lexes)]
      exact ⟨_, lexes_text hg hl hsealed hr, hsealed, h.lexes⟩
  have hunified : Text.isUnified (texts (f :: fs)) := by
    have hreadable : ∃ ds, f.token.isReadable ds := by
      cases fs
      case nil =>
        simp only [areReadable, Bool.and_eq_true] at hr
        exact ⟨[], hr.1⟩
      case cons => exact ⟨_, (areReadable_cons hr).1⟩
    obtain ⟨ds, hreadable⟩ := hreadable
    rw [texts, List.flatMap_cons, Text.isUnified_append]
    exact ⟨isUnified_text (isBlank_of_not_startsGap hg) hl hreadable, h.unified⟩
  refine ⟨htext.append hbehind, fun hhead => ?_, hunified⟩
  obtain hnot | hforeign := hhead f (by simp)
  · rw [hc hnot]
    exact echoes_of_lexes hg hl htext hsingle
  · obtain ⟨d, es, taken', _, he, hgap, hl', -⟩ := htext.of_cons ht
    rw [he] at hgap ⊢
    exact .mute (isMute_of_isForeign hforeign hgap hl') (by simp [hgap])

-- White space in front of the tokens.
theorem rejoins_blank_cons (hg : gap false none p cs = ⟨.ok true, rest, q⟩)
    (hf : f.token.isWhitespace = false) (h : Rejoins multibyte rest (f :: fs)) :
    Rejoins multibyte cs (⟨.whitespace, false⟩ :: f :: fs) := by
  obtain ⟨_, _, _, _, -, hstarts, -⟩ := h.lexes.of_cons (withoutNul_ne_whitespace hf)
  have htexts := @trimmedTexts_cons ⟨.whitespace, false⟩ _ (ne_nil_of_lexes h.lexes)
  have hcs : startsGap cs := startsGap_of_gap (p := p) (by rw [hg]; nofun)
  refine ⟨?_, fun _ => ?_, Text.isUnified_cons.mpr ⟨by decide, h.unified⟩⟩ <;> rw [htexts]
  · exact @Lexes.blank [' '] _ _ _ (by simp) (by simp [isBlank_blank]) hstarts h.lexes
  · exact .mute (d := ' ') (by decide) fun _ => hcs

-- Tokens that the lexer finds one behind the other.
theorem rejoins_found {p : Position} (h : Cursor.isWellFormed (Cursor.lex multibyte ⟨cs, p⟩).1)
    (hfs : fs <+: Cursor.found multibyte ⟨cs, p⟩) (hr : areReadable fs)
    (hl : ∀ f ∈ fs.getLast?, f.isWhitespace = false) : Rejoins multibyte cs fs := by
  induction cs, p, h using Cursor.tokens_induction generalizing fs
  case h₁ cs p blank q _ hg =>
    rw [Cursor.found_of_gap_nil hg] at hfs
    cases fs
    case nil => exact rejoins_nil
    case cons f fs =>
      cases blank
      case false => exact absurd (List.prefix_nil.mp hfs) (by simp)
      case true =>
        obtain ⟨rfl, hnil⟩ := List.cons_prefix_cons.mp hfs
        obtain rfl := List.prefix_nil.mp hnil
        exact absurd (hl _ rfl) (by simp [isWhitespace, Token.isWhitespace])
  case h₂ cs p blank d w r q t _ _ hg hlexeme ih =>
    have hgap := @startsGap_gap cs false none p blank (by rw [hg])
    rw [hg] at hgap
    -- The tokens from the lexeme on.
    have hrejoins {ds : List Char} {fs : List Found} (hfs : fs <+: ⟨t, startsGap cs && !blank⟩ ::
        Cursor.found multibyte ⟨r, q.after (d :: w)⟩) (hr : areReadable fs)
        (hl : ∀ f ∈ fs.getLast?, f.isWhitespace = false)
        (hds : (startsGap cs && !blank) = false → ds = d :: (w ++ r)) : Rejoins multibyte ds fs := by
      cases fs
      case nil => exact rejoins_nil
      case cons f fs =>
        obtain ⟨rfl, hprefix⟩ := List.cons_prefix_cons.mp hfs
        have hlast : ∀ f ∈ fs.getLast?, f.isWhitespace = false :=
          fun g hg => hl g (List.mem_getLast?_cons hg)
        exact rejoins_cons hgap hlexeme hr (ih hprefix (areReadable_of_cons hr) hlast) hds
    rw [Cursor.found_of_lexeme hg hlexeme] at hfs
    cases blank
    case false =>
      refine hrejoins hfs hr hl fun hc => ?_
      have hcs : startsGap cs = false := by simpa using hc
      have := Lexes.gap_of_not_startsGap (b := false) (p := p) hcs
      rw [hg] at this
      exact (Gap.mk.inj this).2.1.symm
    case true =>
      cases fs
      case nil => exact rejoins_nil
      case cons f fs =>
        obtain ⟨rfl, hbehind⟩ := List.cons_prefix_cons.mp hfs
        cases fs
        case nil => exact absurd (hl _ rfl) (by simp [isWhitespace, Token.isWhitespace])
        case cons f fs =>
          have hrest := hrejoins hbehind (areReadable_of_cons hr) (by simpa using hl) fun _ => rfl
          obtain ⟨rfl, -⟩ := List.cons_prefix_cons.mp hbehind
          exact rejoins_blank_cons hg (not_isWhitespace_of_lexeme (by rw [hlexeme])) hrest

/-! ### Trimmed texts -/

theorem isBlank_texts (h : ∀ f ∈ fs, f.isWhitespace) : ∀ c ∈ texts fs, Text.isBlank c := by
  intro c hc
  obtain ⟨f, hf, hc⟩ := List.mem_flatMap.mp hc
  have hwhitespace := h f hf
  obtain ⟨token, commented⟩ := f
  cases token
  case whitespace =>
    obtain rfl : c = ' ' := by simpa [Token.text] using hc
    exact isBlank_blank
  all_goals cases hwhitespace

theorem exists_strip (fs : List Found) : ∃ front back, fs = front ++ (strip fs ++ back) ∧
    (∀ f ∈ front, f.isWhitespace) ∧ ∀ f ∈ back, f.isWhitespace := by
  refine ⟨fs.takeWhile isWhitespace,
    ((fs.dropWhile isWhitespace).reverse.takeWhile isWhitespace).reverse, ?_, ?_, ?_⟩
  · rw [strip, ← List.reverse_append, List.takeWhile_append_dropWhile, List.reverse_reverse,
      List.takeWhile_append_dropWhile]
  · exact List.all_eq_true.mp List.all_takeWhile
  · intro f hf
    exact List.all_eq_true.mp List.all_takeWhile f (List.mem_reverse.mp hf)

theorem strip_isPrefix : strip fs <+: fs.dropWhile isWhitespace := by
  refine ⟨((fs.dropWhile isWhitespace).reverse.takeWhile isWhitespace).reverse, ?_⟩
  rw [strip, ← List.reverse_append, List.takeWhile_append_dropWhile, List.reverse_reverse]

theorem head_strip : ∀ f ∈ (strip fs).head?, f.isWhitespace = false := by
  intro f hf
  have hdrop := List.head?_dropWhile_not isWhitespace fs
  have hprefix := @strip_isPrefix fs
  rw [(List.head?_eq_some_iff.mp hf).choose_spec] at hprefix
  obtain ⟨back, hback⟩ := hprefix
  simpa [← hback] using hdrop

theorem getLast_strip : ∀ f ∈ (strip fs).getLast?, f.isWhitespace = false := by
  intro f hf
  rw [strip, List.getLast?_reverse] at hf
  have := List.head?_dropWhile_not isWhitespace (fs.dropWhile isWhitespace).reverse
  simpa [show _ = some f from hf] using this

theorem trim_texts (h : Rejoins multibyte cs (strip fs)) :
    Text.trim (texts fs) = trimmedTexts (strip fs) := by
  obtain ⟨front, back, hfs, hfront, hback⟩ := exists_strip fs
  have htexts : texts fs = texts front ++ (texts (strip fs) ++ texts back) := by
    simp only [texts, ← List.flatMap_append]
    rw [← hfs]
  have hstart : Text.trimStart (texts fs) = Text.trimStart (texts (strip fs) ++ texts back) := by
    rw [htexts, Text.trimStart, List.dropWhile_append_of_pos (isBlank_texts hfront), Text.trimStart]
  rw [Text.trim, hstart]
  cases hs : strip fs
  case nil =>
    have hdrop : (texts back).dropWhile Text.isBlank = [] := by
      have : (texts back ++ []).dropWhile Text.isBlank = [].dropWhile Text.isBlank :=
        List.dropWhile_append_of_pos (isBlank_texts hback)
      simpa using this
    have hnil : texts [] = [] := rfl
    rw [hnil, List.nil_append, Text.trimStart, hdrop, trimmedTexts, hnil]
  case cons f gs =>
    have hf : f.isWhitespace = false := head_strip f (by rw [hs]; rfl)
    have hlexes := h.lexes
    rw [hs, List.map_cons] at hlexes
    obtain ⟨d, ds, _, _, hd, hgap, -⟩ := hlexes.of_cons (withoutNul_ne_whitespace hf)
    rw [hd] at hgap
    obtain ⟨blanks, hblanks, -⟩ := Text.exists_trimEnd (texts (f :: gs))
    have hhead : Text.trimStart (texts (f :: gs) ++ texts back) = texts (f :: gs) ++ texts back := by
      rw [hblanks, ← trimmedTexts, hd]
      exact List.dropWhile_cons_of_neg (by simp [isBlank_of_not_startsGap hgap])
    rw [hhead, Text.trimEnd_append_of_isBlank (isBlank_texts hback), ← trimmedTexts]

end Found

/-! ### A run of tokens -/

namespace Cursor

open Found Lexing

variable {multibyte : Bool} {fs : List Found}

theorem isWellFormed_of_scan {c c' : Cursor} {result : Lexed}
    (hs : c.scan multibyte = (some result, c')) (h : isWellFormed (c.lex multibyte).1) :
    (∃ t, result = .ok t) ∧ isWellFormed (c'.lex multibyte).1 := by
  rw [lex_of_scan_some hs] at h
  exact isWellFormed_cons.mp h

-- What is found behind the first token is found from some place on.
theorem exists_found_of_cons {c : Cursor} {f : Found} (h : isWellFormed (c.lex multibyte).1)
    (hf : c.found multibyte = f :: fs) :
    ∃ c', isWellFormed (lex multibyte c').1 ∧ c'.found multibyte = fs := by
  cases hscan : c.scan multibyte
  case mk result c' =>
    cases result
    case none =>
      rw [found_of_scan_none hscan] at hf
      cases hf
    case some result =>
      obtain ⟨⟨t, rfl⟩, h'⟩ := isWellFormed_of_scan hscan h
      rw [found_of_scan_ok hscan] at hf
      exact ⟨c', h', (List.cons.inj hf).2⟩

-- White space in front may be skipped.
theorem exists_found_dropWhile {c : Cursor} (h : isWellFormed (c.lex multibyte).1)
    (hfs : fs <+: c.found multibyte) : ∃ c', isWellFormed (lex multibyte c').1 ∧
      fs.dropWhile isWhitespace <+: c'.found multibyte := by
  induction fs generalizing c
  case nil => exact ⟨c, h, List.nil_prefix⟩
  case cons f fs ih =>
    cases hf : f.isWhitespace
    case false => exact ⟨c, h, by rwa [List.dropWhile_cons_of_neg (by simp [hf])]⟩
    case true =>
      rw [List.dropWhile_cons_of_pos hf]
      obtain ⟨behind, hbehind⟩ := hfs
      obtain ⟨c', h', hc'⟩ := exists_found_of_cons h hbehind.symm
      exact ih h' ⟨behind, hc'.symm⟩

-- The texts of some tokens, trimmed, are read as the tokens without white space at the ends.
theorem exists_lex_texts {c : Cursor} (h : isWellFormed (c.lex multibyte).1)
    (hfs : fs <+: c.found multibyte) (hr : areReadable (strip fs)) :
    ∃ placed : List Placed,
      ((ofText (String.ofList (Text.trim (texts fs)))).lex true).1 = placed.map .ok ∧
      placed.map Placed.token = (strip fs).map (·.token.withoutNul) := by
  obtain ⟨⟨cs, p⟩, h', hdrop⟩ := exists_found_dropWhile h hfs
  have hstrip : strip fs <+: found multibyte ⟨cs, p⟩ :=
    strip_isPrefix.trans hdrop
  have hrejoins := rejoins_found h' hstrip hr getLast_strip
  obtain ⟨placed, finish, hlex, htokens⟩ := hrejoins.lexes.lex .start
  refine ⟨placed, ?_, htokens⟩
  have hunified : Text.isUnified (trimmedTexts (strip fs)) := by
    obtain ⟨blanks, hblanks, -⟩ := Text.exists_trimEnd (texts (strip fs))
    have := hrejoins.unified
    rw [hblanks] at this
    exact (Text.isUnified_append.mp this).1
  rw [trim_texts hrejoins, ofText, String.toList_ofList,
    Text.unifyLineEnds_of_isUnified hunified, hlex]

end Cursor
end Stylesheet
