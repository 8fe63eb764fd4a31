import Mathlib
import Stylesheet.Proofs.Selector.Squeezed
import Stylesheet.Proofs.Token.Squeezed
/-!
The tokens of a selector. Normalization knows white space and quotes, but neither escapes nor
comments; so the text of a selector has the tokens that the source has, white space at the ends
aside, where strings begin outside what normalization takes for strings and names have no white
space that it would change. Main statement: `Selector.tokens_ofText`.
-/

namespace Stylesheet

open Lexing
open Text (Squeezed)

variable {multibyte : Bool} {cs ds rest : List Char} {p q : Position}

-- Tokens without white space at the ends.
def Token.trim (ts : List Token) : List Token :=
  (ts.dropWhile isWhitespace).rdropWhile isWhitespace

theorem Token.trim_append {ts us : List Token} (h : ∀ t ∈ us, t.isWhitespace) :
    trim (ts ++ us) = trim ts := by
  rw [trim, List.dropWhile_append]
  split
  case isTrue hts =>
    have hus : us.dropWhile isWhitespace = [] := List.dropWhile_eq_nil_iff.mpr h
    rw [hus, trim, List.isEmpty_iff.mp hts]
  case isFalse =>
    have hback : ∀ t ∈ us.reverse, t.isWhitespace := fun t ht => h t (List.mem_reverse.mp ht)
    rw [List.rdropWhile, List.reverse_append, List.dropWhile_append_of_pos hback, trim,
      List.rdropWhile]

namespace Cursor

theorem isWhitespace_blanks {blank : Bool} : ∀ t ∈ tokens (blanks blank p), t.isWhitespace := by
  cases blank <;> simp [tokens, blanks, Except.toOption, Token.isWhitespace]

theorem tokens_lexeme {blank : Bool} {t : Placed} {results : List Lexed} :
    tokens (blanks blank p ++ .ok t :: results) =
      (if blank then [.whitespace] else []) ++ t.token :: tokens results := by
  cases blank <;> rfl

theorem isWellFormed_dropBlanks {results : List Lexed} :
    isWellFormed (dropBlanks results) = isWellFormed results := by
  induction results
  case nil => rfl
  case cons result results ih =>
    rw [dropBlanks, List.dropWhile_cons]
    split
    case isTrue hblank =>
      cases result
      case error => cases hblank
      case ok => exact ih
    case isFalse => rfl

theorem tokens_dropBlanks {results : List Lexed} (h : isWellFormed results) :
    tokens (dropBlanks results) = (tokens results).dropWhile Token.isWhitespace := by
  induction results
  case nil => rfl
  case cons result results ih =>
    obtain ⟨⟨t, rfl⟩, hresults⟩ := isWellFormed_cons.mp h
    have htokens : tokens (.ok t :: results) = t.token :: tokens results := rfl
    rw [htokens, List.dropWhile_cons, ← ih hresults, dropBlanks, List.dropWhile_cons, isBlank]
    split <;> rfl

end Cursor

namespace Selector

-- A lexeme of a text, and the context in which normalization sees it.
structure Piece where
  context : Context
  lexeme : Lexeme

-- The lexemes of a text.
def pieces (multibyte : Bool) (context : Context) (cs : List Char) : List Piece :=
  match _h : (gap false none .start cs).rest with
  | [] => []
  | d :: rest =>
    let context := context.passAll (cs.take (cs.length - (d :: rest).length))
    let l := lexeme multibyte d rest
    ⟨context, l⟩ :: pieces multibyte (context.passAll l.taken) l.rest
termination_by cs.length
decreasing_by
  have hle := (_h ▸ gap_suffix false none .start cs).length_le
  exact Nat.lt_of_le_of_lt (lexeme_rest_length multibyte d rest) hle

-- Whether normalization leaves the target of an url what it is: a string in it is a string to
-- normalization.
def keepsTarget (context : Context) (x : List Char) : Bool :=
  let (blanks, target) := blankSpan x
  if target.head?.any isQuote then context.passAll blanks = .plain
  else keepsBlanks [')'] .nothing (targetSpan .nothing target).1

-- Whether normalization leaves a token what it is: a string is a string to it, and white space in
-- a name is part of an escape and has no more white space behind it.
def Piece.isKept (multibyte : Bool) (piece : Piece) : Bool :=
  match piece.lexeme.result with
  | .ok (.string _) => piece.context = .plain
  | .ok (.url _) =>
    let (name, target) := nameSpan multibyte .nothing piece.lexeme.taken
    keepsBlanks target .nothing name &&
      keepsTarget (piece.context.passAll (name ++ ['('])) target.tail
  | _ => keepsBlanks piece.lexeme.rest .nothing piece.lexeme.taken

variable {context : Context} {blank : Bool} {d : Char} {g v w r taken : List Char} {t : Token}

theorem pieces_of_gap (h : (gap false none p (g ++ d :: rest)).rest = d :: rest) :
    pieces multibyte context (g ++ d :: rest) =
      let l := lexeme multibyte d rest
      ⟨context.passAll g, l⟩ ::
        pieces multibyte ((context.passAll g).passAll l.taken) l.rest := by
  have hrest := (@gap_at (g ++ d :: rest) false none p none .start rfl).1
  rw [h] at hrest
  have htake : (g ++ d :: rest).take ((g ++ d :: rest).length - (d :: rest).length) = g := by simp
  rw [pieces]
  split
  case h_1 hnil => cases hnil.symm.trans hrest
  case h_2 hcons =>
    cases hcons.symm.trans hrest
    rw [htake]

theorem pieces_of_gap_nil (h : (gap false none .start cs).rest = []) :
    pieces multibyte context cs = [] := by
  rw [pieces]
  split
  case h_1 => rfl
  case h_2 hcons => cases h.symm.trans hcons

theorem passAll_of_isBlank {blanks : List Char} (hb : ∀ c ∈ blanks, Text.isBlank c) :
    Context.plain.passAll blanks = .plain := by
  induction blanks
  case nil => rfl
  case cons c blanks ih =>
    obtain ⟨hc, hblanks⟩ := List.forall_mem_cons.mp hb
    rw [Context.passAll, List.foldl_cons, Context.pass_of_isBlank rfl hc]
    exact ih hblanks

-- White space in front of a text does not matter to its lexemes.
theorem pieces_append {blanks : List Char} (hb : ∀ c ∈ blanks, Text.isBlank c) :
    pieces multibyte .plain (blanks ++ cs) = pieces multibyte .plain cs := by
  obtain ⟨r, hgap⟩ := @Lexes.gap_blanks [] blanks false .start hb rfl
  rw [List.append_nil] at hgap
  have hrest : (gap false none .start (blanks ++ cs)).rest = (gap false none .start cs).rest := by
    rw [gap_gap hgap, (@gap_blank cs _ _ _ false).1]
    exact (gap_at rfl).1
  obtain ⟨g, hg⟩ := gap_suffix false none .start cs
  cases hcs : (gap false none .start cs).rest
  case nil => rw [pieces_of_gap_nil hcs, pieces_of_gap_nil (hrest.trans hcs)]
  case cons d rest =>
    rw [hcs] at hg hrest
    subst hg
    rw [← List.append_assoc] at hrest ⊢
    rw [pieces_of_gap hrest, pieces_of_gap hcs, Context.passAll_append, passAll_of_isBlank hb]

/-! ### One lexeme -/

theorem of_lexeme_string {s : String} (hd : Text.isBlank d = false)
    (hl : lexeme multibyte d (w ++ r) = ⟨.ok (.string s), d :: w, r⟩) :
    isQuote d ∧ ∃ content, w = content ++ [d] ∧
      stringSpan d .nothing (content ++ d :: r) = (content, d :: r) := by
  have hq : isQuote d := reads_of_lexeme hd hl
  refine ⟨hq, ?_⟩
  rw [lexeme, if_pos hq] at hl
  unfold string at hl
  split at hl
  case h_1 content taken r' hquoted =>
    obtain ⟨rfl, htaken, -⟩ := of_decoded hl
    have hspan := stringSpan_of_quoted hquoted
    have happend := stringSpan_append d .nothing (w ++ r)
    rw [hspan] at happend
    have hw : w = content ++ [d] := by
      rw [List.append_cons] at happend
      exact (List.append_cancel_right happend).symm
    refine ⟨content, hw, ?_⟩
    rw [← happend] at hspan
    exact hspan
  case h_2 => cases hl

theorem exists_concat_of_urlText {s : String} (h : UrlText s w) : ∃ v, w = v ++ [')'] := by
  cases h
  case bare front target back _ _ _ _ _ _ _ => exact ⟨front ++ (target ++ back), by simp⟩
  case quoted quote front content back _ _ _ _ _ _ _ =>
    exact ⟨front ++ quote :: (content ++ quote :: back), by simp⟩

-- The end of a string and of an url is no white space.
theorem not_isBlank_getLast (hd : Text.isBlank d = false)
    (hl : lexeme multibyte d (w ++ r) = ⟨.ok t, d :: w, r⟩)
    (ht : ∃ s, t = .string s ∨ t = .url s) : ∀ c ∈ (d :: w).getLast?, Text.isBlank c = false := by
  obtain ⟨s, rfl | rfl⟩ := ht
  case inl =>
    obtain ⟨-, content, rfl, -⟩ := of_lexeme_string hd hl
    intro c hc
    rw [← List.cons_append, List.getLast?_concat] at hc
    cases hc
    exact hd
  case inr =>
    obtain ⟨z, x, _, rfl, -, -, -, -, hx⟩ := of_lexeme_url hd hl
    obtain ⟨v, rfl⟩ := exists_concat_of_urlText hx
    intro c hc
    have hconcat : d :: (z ++ '(' :: (v ++ [')'])) = d :: (z ++ '(' :: v) ++ [')'] := by simp
    rw [hconcat, List.getLast?_concat] at hc
    cases hc
    decide

theorem startsBlank_of_keepsBlanks {pending : Pending} (hw : w ≠ [])
    (hk : keepsBlanks r pending w) (hb : ∀ c ∈ w.getLast?, Text.isBlank c) :
    startsBlank r = false ∨ ∀ c ∈ r, Text.isBlank c := by
  induction w generalizing pending
  case nil => exact absurd rfl hw
  case cons c w ih =>
    simp only [keepsBlanks, Bool.and_eq_true] at hk
    cases w
    case nil =>
      have hc : Text.isBlank c := hb c rfl
      cases pending <;> simp_all
    case cons d w =>
      refine ih (List.cons_ne_nil _ _) hk.2 ?_
      rwa [List.getLast?_cons_cons] at hb

theorem keepsBlanks_of_isKept (ht : ¬∃ s, t = .string s ∨ t = .url s)
    (hk : Piece.isKept multibyte ⟨context, .ok t, w, r⟩) : keepsBlanks r .nothing w := by
  cases t
  case string s => exact absurd ⟨s, .inl rfl⟩ ht
  case url s => exact absurd ⟨s, .inr rfl⟩ ht
  all_goals exact hk

-- White space at the end of a lexeme has none behind it, or nothing else.
theorem startsBlank_of_isKept (hd : Text.isBlank d = false)
    (hl : lexeme multibyte d (w ++ r) = ⟨.ok t, d :: w, r⟩)
    (hk : Piece.isKept multibyte ⟨context, .ok t, d :: w, r⟩)
    (hb : ∃ c ∈ (d :: w).getLast?, Text.isBlank c) :
    startsBlank r = false ∨ ∀ c ∈ r, Text.isBlank c := by
  obtain ⟨c, hc, hb⟩ := hb
  have hall : ∀ c ∈ (d :: w).getLast?, Text.isBlank c := by
    intro e he
    obtain rfl := Option.some.inj (hc.symm.trans he)
    exact hb
  by_cases ht : ∃ s, t = .string s ∨ t = .url s
  case pos => cases (not_isBlank_getLast hd hl ht c hc).symm.trans hb
  case neg =>
    exact startsBlank_of_keepsBlanks (List.cons_ne_nil _ _) (keepsBlanks_of_isKept ht hk) hall

theorem startsGap_lexeme {w' r' : List Char} (hg : startsGap (d :: (w ++ r)) = false)
    (hl : lexeme multibyte d (w ++ r) = ⟨.ok t, d :: w, r⟩)
    (hl' : lexeme multibyte d (w' ++ r') = ⟨.ok t, d :: w', r'⟩)
    (hlook : LooksLike multibyte r r') : startsGap (d :: (w' ++ r')) = false := by
  have hd := isBlank_of_not_startsGap hg
  by_cases hslash : d = '/'
  case neg => exact startsGap_cons hd hslash
  case pos =>
    subst hslash
    rw [lexeme_slash] at hl hl'
    obtain rfl : w = [] := (List.cons.inj (Lexeme.mk.inj hl).2.1).2.symm
    obtain rfl : w' = [] := (List.cons.inj (Lexeme.mk.inj hl').2.1).2.symm
    refine startsGap_slash fun c hc => ?_
    rintro rfl
    have hhead := hlook.head '*' (by simp)
    rw [show r'.head? = some '*' from hc] at hhead
    obtain ⟨r, rfl⟩ := List.head?_eq_some_iff.mp (beq_iff_eq.mp hhead.symm)
    cases hg

-- The text of an url is still one.
theorem urlText_of_keepsTarget {s : String} {x : List Char} (hx : UrlText s x)
    (hk : keepsTarget context x) : UrlText s (squeeze blank context x) := by
  cases hx
  case bare front target back name hf hb hn ht hname hs =>
    obtain ⟨e, es, he, hblank, hquote⟩ := exists_cons_target hn (ht [])
    have hspan : blankSpan (front ++ (target ++ (back ++ [')']))) = (front, e :: es) := by
      rw [he]
      exact blankSpan_append_cons hf hblank
    have htarget : targetSpan .nothing (e :: es) = (target, back ++ [')']) := he ▸ ht []
    simp only [keepsTarget, hspan, htarget, List.head?_cons, Option.any_some, hquote,
      Bool.false_eq_true, if_false] at hk
    rw [hs]
    exact urlText_squeezed hf hb hn ht hname hk (@squeezed_squeeze [] ..)
  case quoted quote front content back name hf hb hq hc hname hs =>
    have hplain : context.passAll front = .plain := by
      simpa [keepsTarget, blankSpan_append_cons hf (Context.of_isQuote hq).1, hq] using hk
    obtain ⟨b₁, hfront, -⟩ := exists_squeeze_append blank context front
      (quote :: (content ++ [quote]) ++ (back ++ [')']))
    obtain ⟨hstring, hbehind⟩ := @squeeze_string b₁ quote content _ hq (hc [])
    obtain ⟨b₂, hcontent, -⟩ :=
      exists_squeeze_append b₁ .plain (quote :: (content ++ [quote])) (back ++ [')'])
    obtain ⟨b₃, hback, -⟩ := exists_squeeze_append b₂ .plain back [')']
    have hparen (context : Context) : squeeze b₃ context [')'] = [')'] :=
      squeeze_keep (.inr (by decide))
    have hx : squeeze blank context (front ++ quote :: (content ++ quote :: (back ++ [')']))) =
        squeeze blank context front ++
          quote :: (content ++ quote :: (squeeze b₂ .plain back ++ [')'])) := by
      rw [hplain, hcontent, hstring, hbehind, hback, hparen] at hfront
      simpa using hfront
    rw [hx]
    exact .quoted ((@squeezed_squeeze [] ..).isBlank_of_mem hf)
      ((@squeezed_squeeze [] ..).isBlank_of_mem hb) hq hc hname hs

-- A lexeme that is kept is read as the same token, the rest being normalized already.
theorem exists_lexeme_squeezed {r' v : List Char} (hd : Text.isBlank d = false)
    (hl : lexeme multibyte d (w ++ r) = ⟨.ok t, d :: w, r⟩)
    (hk : Piece.isKept multibyte ⟨context, .ok t, d :: w, r⟩) (hlook : LooksLike multibyte r r')
    (hr : r' = [] → ∀ c ∈ r, Text.isBlank c) (hs : Squeezed r' blank (d :: w) v)
    (hlast : (∀ c ∈ (d :: w).getLast?, Text.isBlank c = false) →
      v = squeeze blank context (d :: w)) :
    ∃ w', v = d :: w' ∧ lexeme multibyte d (w' ++ r') = ⟨.ok t, d :: w', r'⟩ := by
  have hl' := lexeme_congr hl hlook.continuesLess
  obtain ⟨w', rfl, hw'⟩ := hs.of_cons hd
  refine ⟨w', rfl, ?_⟩
  by_cases ht : ∃ s, t = .string s ∨ t = .url s
  case pos =>
    have hv := hlast (not_isBlank_getLast hd hl ht)
    obtain ⟨s, rfl | rfl⟩ := ht
    case inl =>
      obtain ⟨hq, content, rfl, hspan⟩ := of_lexeme_string hd hl
      obtain rfl : context = .plain := by simpa [Piece.isKept] using hk
      rw [(squeeze_string hq hspan).1] at hv
      obtain rfl := (List.cons.inj hv).2
      exact hl'
    case inr =>
      obtain ⟨z, x, word, rfl, hi, hspan, hword, hurl, hx⟩ := of_lexeme_url hd hl
      have hname : nameSpan multibyte .nothing (d :: (z ++ '(' :: x)) = (d :: z, '(' :: x) :=
        nameSpan_congr hspan (by simp) (LooksLike.inert (by decide) _ _).continuesLess
      simp only [Piece.isKept, hname, List.tail_cons, Bool.and_eq_true] at hk
      obtain ⟨hkname, hktarget⟩ := hk
      -- The parts of the text: the name, the parenthesis and the target.
      obtain ⟨_, happend, -⟩ := exists_squeeze_append blank context (d :: z) ('(' :: x)
      obtain ⟨z', hz, hz'⟩ := Squeezed.of_cons hd
        (@squeezed_squeeze ['('] blank context (d :: z))
      have hpass : context.passAll (d :: z ++ ['(']) = (context.passAll (d :: z)).pass '(' :=
        Context.passAll_append
      rw [← List.cons_append, happend, hz, squeeze_keep (.inr (by decide)), ← hpass,
        List.cons_append] at hv
      have hx' := @urlText_of_keepsTarget (context.passAll (d :: z ++ ['('])) false s x hx hktarget
      have hsqueezed : Squeezed ['('] false (d :: z) (d :: z') := .keep hz'
      have hrespells := respells_of_squeezed hsqueezed hkname (by simp) (by simp)
      rw [(List.cons.inj hv).2, List.append_assoc, List.cons_append]
      exact lexeme_url_respelled hspan hi hword hurl hrespells hx' r'
  case neg =>
    exact lexeme_squeezed hw' (keepsBlanks_of_isKept ht hk) hr hl' fun s =>
      ⟨fun h => ht ⟨s, .inl h⟩, fun h => ht ⟨s, .inr h⟩⟩

/-! ### A whole text -/

theorem squeeze_of_not_startsBlank (blank : Bool)
    (h : startsBlank cs = false ∨ ∀ c ∈ cs, Text.isBlank c) :
    squeeze blank context (Text.trimEnd cs) = squeeze false context (Text.trimEnd cs) := by
  obtain h | h := h
  case inl =>
    obtain ⟨blanks, hcs, -⟩ := Text.exists_trimEnd cs
    cases htrim : Text.trimEnd cs
    case nil => rfl
    case cons c ds =>
      rw [hcs, htrim] at h
      rw [squeeze_keep (.inr h), squeeze_keep (.inr h)]
  case inr => rw [Text.trimEnd_of_isBlank h]; rfl

-- What is behind a lexeme that is kept is normalized by itself.
theorem exists_squeeze_lexeme (blank : Bool) (hd : Text.isBlank d = false)
    (hl : lexeme multibyte d (w ++ r) = ⟨.ok t, d :: w, r⟩)
    (hk : Piece.isKept multibyte ⟨context, .ok t, d :: w, r⟩) :
    let r' := squeeze false (context.passAll (d :: w)) (Text.trimEnd r)
    ∃ v, squeeze blank context (Text.trimEnd (d :: w ++ r)) = v ++ r' ∧
      Squeezed r' blank (d :: w) v ∧ ((∀ c ∈ (d :: w).getLast?, Text.isBlank c = false) →
        v = squeeze blank context (d :: w)) := by
  obtain ⟨blank', v, hv, hs, hlast, hblank⟩ := exists_squeeze_trimEnd blank context (d :: w) r
  have hr : squeeze blank' (context.passAll (d :: w)) (Text.trimEnd r) =
      squeeze false (context.passAll (d :: w)) (Text.trimEnd r) := by
    cases blank'
    case false => rfl
    case true =>
      refine squeeze_of_not_startsBlank true (startsBlank_of_isKept hd hl hk ?_)
      exact (hblank rfl).resolve_left fun h => absurd h.1 (List.cons_ne_nil _ _)
  rw [hr] at hv hs
  exact ⟨v, hv, hs, hlast⟩

-- The tokens of a normalized text are those of the text, but for white space at the end.
theorem exists_tokens_squeeze (hw : Cursor.isWellFormed (Cursor.lex multibyte ⟨cs, p⟩).1)
    (hk : (pieces multibyte context cs).all (Piece.isKept multibyte)) (q : Position) :
    let results := (Cursor.lex multibyte ⟨squeeze false context (Text.trimEnd cs), q⟩).1
    Cursor.isWellFormed results ∧ ∃ ts us vs,
      Cursor.tokens (Cursor.lex multibyte ⟨cs, p⟩).1 = ts ++ us ∧ Cursor.tokens results = ts ++ vs ∧
      (∀ t ∈ us ++ vs, t.isWhitespace) := by
  induction cs, p, hw using Cursor.tokens_induction generalizing context q
  case h₁ cs p blank r _ hg =>
    obtain ⟨g, rfl, -, hgap⟩ := exists_isGap hg
    rw [List.append_nil] at hg ⊢
    obtain ⟨blank', q', hg', -⟩ :=
      @hgap _ _ _ [] q (squeezed_trimEnd false context g) (by simp) rfl q
    rw [List.append_nil, Option.map_none] at hg'
    simp only [Cursor.lex_of_gap_nil hg, Cursor.lex_of_gap_nil hg']
    refine ⟨by cases blank' <;> rfl, [], _, _, rfl, rfl, ?_⟩
    exact List.forall_mem_append.mpr ⟨Cursor.isWhitespace_blanks, Cursor.isWhitespace_blanks⟩
  case h₂ cs p blank d w r p' t _ hbehind hg hlexeme ih =>
    have hstarts := @startsGap_gap cs false none p blank (by rw [hg])
    have hrest : (gap false none p cs).rest = d :: (w ++ r) := by rw [hg]
    rw [hrest] at hstarts
    have hd := isBlank_of_not_startsGap hstarts
    obtain ⟨g, rfl, -, hgap⟩ := exists_isGap hg
    rw [pieces_of_gap hrest, hlexeme, List.all_cons, Bool.and_eq_true] at hk
    obtain ⟨hkept, hk⟩ := hk
    -- The gap, the lexeme and what is behind it are normalized by themselves.
    obtain ⟨b₁, g', hsqueeze, hgs, -, -⟩ := exists_squeeze_trimEnd false context g (d :: w ++ r)
    obtain ⟨v, hv, hvs, hvlast⟩ := exists_squeeze_lexeme b₁ hd hlexeme hkept
    have hrs := squeezed_trimEnd false ((context.passAll g).passAll (d :: w)) r
    have hih := ih hk
    generalize squeeze false ((context.passAll g).passAll (d :: w)) (Text.trimEnd r) = r'
      at hv hvs hrs hih
    -- What is behind the lexeme is read as the same tokens, so the lexeme and the gap are the same.
    have hlook := looksLike_squeezed hrs hbehind (hih .start).1
    obtain ⟨w', rfl, hlexeme'⟩ := exists_lexeme_squeezed hd hlexeme hkept hlook
      (fun hnil => (hnil ▸ hrs).isBlank_of_nil) hvs hvlast
    rw [hv] at hsqueeze hgs
    obtain ⟨blank', q', hg', hblank⟩ :=
      hgap hgs (by simp) (startsGap_lexeme hstarts hlexeme hlexeme' hlook) q
    obtain rfl := hblank (List.cons_ne_nil _ _)
    obtain ⟨hwell, ts, us, vs, hts, hvs, hends⟩ := hih (q'.after (d :: w'))
    have hlex := Cursor.lex_of_lexeme hg hlexeme
    simp only [List.cons_append] at hsqueeze hlex ⊢
    rw [hsqueeze, hlex, Cursor.lex_of_lexeme hg' hlexeme', Cursor.isWellFormed_blanks,
      Cursor.isWellFormed_cons, Cursor.tokens_lexeme, Cursor.tokens_lexeme, hts, hvs]
    exact ⟨⟨⟨_, rfl⟩, hwell⟩, (if blank' then [.whitespace] else []) ++ t :: ts, us, vs, by simp,
      by simp, hends⟩

-- Whether normalization leaves every token of a text what it is.
def keepsTokens (multibyte : Bool) (text : String) : Bool :=
  (pieces multibyte .plain (Text.unifyLineEnds text.toList)).all (Piece.isKept multibyte)

theorem toList_of_ofText {text : String} {s : Selector} (h : ofText text = .ok s) :
    s.text.toList = normalize text.toList := by
  simp only [ofText] at h
  split at h
  case h_1 => cases h
  case h_2 =>
    split at h
    case isTrue => cases h
    case isFalse =>
      cases h
      exact String.toList_ofList

-- A selector has the tokens of its text.
theorem tokens_ofText {text : String} {s : Selector} (hs : ofText text = .ok s)
    (hw : Cursor.isWellFormed ((Cursor.ofText text).lex multibyte).1)
    (hk : keepsTokens multibyte text) :
    Cursor.isWellFormed ((Cursor.ofText s.text).lex multibyte).1 ∧
      Token.trim (Cursor.tokens ((Cursor.ofText s.text).lex multibyte).1) =
        Token.trim (Cursor.tokens ((Cursor.ofText text).lex multibyte).1) := by
  simp only [Cursor.ofText] at hw ⊢
  rw [toList_of_ofText hs, normalize_unifyLineEnds, normalize_eq, Text.trim]
  rw [keepsTokens] at hk
  generalize Text.unifyLineEnds text.toList = cs at hw hk ⊢
  -- White space in front is left out.
  obtain ⟨blanks, hcs, hblanks⟩ : ∃ blanks, cs = blanks ++ Text.trimStart cs ∧
      ∀ c ∈ blanks, Text.isBlank c :=
    ⟨_, List.takeWhile_append_dropWhile.symm, List.all_eq_true.mp List.all_takeWhile⟩
  generalize Text.trimStart cs = ds at hcs ⊢
  subst hcs
  obtain ⟨r, hgap⟩ := @Lexes.gap_blanks [] blanks false .start hblanks rfl
  rw [List.append_nil] at hgap
  have hdrop := @Cursor.dropBlanks_lex_gap multibyte ds .start .start _ _ _ hgap
  rw [pieces_append hblanks] at hk
  have hds : Cursor.isWellFormed (Cursor.lex multibyte ⟨ds, .start⟩).1 := by
    rwa [← Cursor.isWellFormed_unplaced, ← Cursor.isWellFormed_dropBlanks, ← hdrop,
      Cursor.isWellFormed_dropBlanks, Cursor.isWellFormed_unplaced]
  obtain ⟨hwell, ts, us, vs, hts, hvs, hends⟩ := exists_tokens_squeeze hds hk .start
  obtain ⟨hus, hvs'⟩ := List.forall_mem_append.mp hends
  refine ⟨hwell, ?_⟩
  have hfront := congrArg Cursor.tokens hdrop
  rw [Cursor.tokens_dropBlanks (Cursor.isWellFormed_unplaced.trans hw),
    Cursor.tokens_dropBlanks (Cursor.isWellFormed_unplaced.trans hds), Cursor.tokens_unplaced,
    Cursor.tokens_unplaced] at hfront
  rw [hvs, Token.trim_append hvs', ← Token.trim_append hus, ← hts]
  simp only [Token.trim, hfront]

theorem tokens_ofText_attribute :
    ofText " a\n>  [b=\"c  d\"]\\41 e " = .ok ⟨"a > [b=\"c  d\"]\\41 e"⟩ ∧
      Cursor.isWellFormed ((Cursor.ofText " a\n>  [b=\"c  d\"]\\41 e ").lex true).1 ∧
      keepsTokens true " a\n>  [b=\"c  d\"]\\41 e " ∧
      Token.trim (Cursor.tokens ((Cursor.ofText "a > [b=\"c  d\"]\\41 e").lex true).1) =
        Token.trim (Cursor.tokens
          ((Cursor.ofText " a\n>  [b=\"c  d\"]\\41 e ").lex true).1) := by
  have hs : ofText " a\n>  [b=\"c  d\"]\\41 e " = .ok ⟨"a > [b=\"c  d\"]\\41 e"⟩ := by cbv
  have hw : Cursor.isWellFormed
      ((Cursor.ofText " a\n>  [b=\"c  d\"]\\41 e ").lex true).1 := by cbv
  have hk : keepsTokens true " a\n>  [b=\"c  d\"]\\41 e " := by cbv
  exact ⟨hs, hw, hk, (tokens_ofText hs hw hk).2⟩

-- White space behind an escape is taken along with it.
theorem tokens_differ_behind_escape :
    ofText "\\41  b" = .ok ⟨"\\41 b"⟩ ∧
      Cursor.isWellFormed ((Cursor.ofText "\\41  b").lex true).1 ∧
      Token.trim (Cursor.tokens ((Cursor.ofText "\\41 b").lex true).1) ≠
        Token.trim (Cursor.tokens ((Cursor.ofText "\\41  b").lex true).1) := by
  have h₁ : Cursor.tokens ((Cursor.ofText "\\41 b").lex true).1 = [.identifier "Ab"] := by cbv
  have h₂ : Cursor.tokens ((Cursor.ofText "\\41  b").lex true).1 =
      [.identifier "A", .whitespace, .identifier "b"] := by cbv
  refine ⟨by cbv, by cbv, ?_⟩
  rw [h₁, h₂]
  decide

end Selector
end Stylesheet
