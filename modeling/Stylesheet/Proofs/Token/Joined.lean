import Stylesheet.Proofs.Text.LineEnds
import Stylesheet.Proofs.Token.Followed
import Stylesheet.Proofs.Token.Placement
/-!
The lexer on two texts in a row. If the first ends a statement, its tokens are those that it has
alone, and what is left for the second is at most some more white space in front of it. Where the
second stands does not matter to its tokens. Main statements: `Cursor.exists_front`,
`Cursor.exists_lex_append`.
-/

namespace Stylesheet

open Lexing (gap lexeme hasClosing)

namespace Cursor

def isBlank : Lexed → Bool
  | .ok t => t.token.isWhitespace
  | .error _ => false

def isClosing : Lexed → Bool
  | .ok t => t.token.isClosing
  | .error _ => false

-- Whether the last result, white space aside, is a semicolon or a closing brace, if there is any.
def endsStatement (results : List Lexed) : Bool :=
  (results.filter (!isBlank ·)).getLast?.all isClosing

variable {multibyte : Bool} {cs ds rest : List Char} {p q : Position} {result : Lexed}
  {results : List Lexed}

theorem endsStatement_cons (h : endsStatement (result :: results)) : endsStatement results ∧
    (results.all isBlank → isBlank result ∨ isClosing result) := by
  cases hb : isBlank result
  case true => simpa [endsStatement, hb] using h
  case false =>
    rw [endsStatement, List.filter_cons_of_pos (by simp [hb])] at h
    cases hl : results.filter (!isBlank ·)
    case nil =>
      rw [hl] at h
      exact ⟨by simp [endsStatement, hl], fun _ => .inr h⟩
    case cons r rs =>
      rw [hl, List.getLast?_cons_cons] at h
      refine ⟨by rwa [endsStatement, hl], fun hall => ?_⟩
      obtain ⟨hr, hn⟩ := List.mem_filter.mp (show r ∈ results.filter (!isBlank ·) by simp [hl])
      simp [List.all_eq_true.mp hall r hr] at hn

theorem exists_isClosing (h : endsStatement results) (hn : ¬results.all isBlank) :
    ∃ result ∈ results, isClosing result := by
  cases hl : (results.filter (!isBlank ·)).getLast?
  case none =>
    rw [List.getLast?_eq_none_iff, List.filter_eq_nil_iff] at hl
    exact absurd (List.all_eq_true.mpr fun r hr => by simpa using hl r hr) hn
  case some r =>
    rw [endsStatement, hl] at h
    exact ⟨r, (List.mem_filter.mp (List.mem_of_getLast? hl)).1, h⟩

/-! ### One lexeme after the other -/

-- White space at a position, if there is any.
def blanks (blank : Bool) (p : Position) : List Lexed :=
  if blank then [.ok ⟨.whitespace, p⟩] else []

theorem endsStatement_blanks {blank : Bool} :
    endsStatement (blanks blank p ++ results) = endsStatement results := by
  cases blank <;> rfl

theorem isClosing_place {l : Lexing.Lexeme} (h : isClosing (place p l)) :
    ∃ t, l.result = .ok t ∧ t.isClosing := by
  unfold place at h
  split at h
  · next t ht => exact ⟨t, ht, h⟩
  · cases h

theorem not_isBlank_place {d : Char} : isBlank (place p (lexeme multibyte d rest)) = false := by
  unfold place
  split
  · next t ht => exact Lexing.not_isWhitespace_of_lexeme ht
  · rfl

theorem lex_nil : lex multibyte ⟨[], p⟩ = ([], p) :=
  @lex_of_scan_none multibyte ⟨[], p⟩ ⟨[], p⟩ rfl

theorem lex_of_gap_error {start : Position} (h : gap false none p cs = ⟨.error start, rest, q⟩) :
    lex multibyte ⟨cs, p⟩ = ([.error ⟨.lexical .unterminatedComment, start⟩], q) := by
  have hrest := @Lexing.gap_error cs false none p start (by rw [h])
  rw [h] at hrest
  obtain rfl : rest = [] := hrest
  have hscan : scan multibyte ⟨cs, p⟩ =
      (some (.error ⟨.lexical .unterminatedComment, start⟩), ⟨[], q⟩) := by
    simp only [scan, h]
  rw [lex_of_scan_some hscan, lex_nil]

theorem lex_of_gap_nil {blank : Bool} (h : gap false none p cs = ⟨.ok blank, [], q⟩) :
    lex multibyte ⟨cs, p⟩ = (blanks blank p, q) := by
  cases blank
  case false =>
    have hscan : scan multibyte ⟨cs, p⟩ = (none, ⟨[], q⟩) := by simp only [scan, h]
    rw [lex_of_scan_none hscan]
    rfl
  case true =>
    have hscan : scan multibyte ⟨cs, p⟩ = (some (.ok ⟨.whitespace, p⟩), ⟨[], q⟩) := by
      simp only [scan, h]
    rw [lex_of_scan_some hscan, lex_nil]
    rfl

theorem lex_of_gap_cons {blank : Bool} {d : Char}
    (h : gap false none p cs = ⟨.ok blank, d :: rest, q⟩) :
    lex multibyte ⟨cs, p⟩ =
      let l := lexeme multibyte d rest
      let behind := lex multibyte ⟨l.rest, q.after l.taken⟩
      (blanks blank p ++ place q l :: behind.1, behind.2) := by
  have hgap := @Lexing.startsGap_gap cs false none p blank (by rw [h])
  rw [h] at hgap
  have hrest := @Lexing.Lexes.gap_of_not_startsGap _ false q hgap
  -- One lexeme, behind white space or without it.
  have hlexeme {cs : List Char} {p : Position} (h : gap false none p cs = ⟨.ok false, d :: rest, q⟩) :
      scan multibyte ⟨cs, p⟩ = (some (place q (lexeme multibyte d rest)),
        ⟨(lexeme multibyte d rest).rest, q.after (lexeme multibyte d rest).taken⟩) := by
    simp only [scan, h]
  cases blank
  case false => exact lex_of_scan_some (hlexeme h)
  case true =>
    have hscan : scan multibyte ⟨cs, p⟩ = (some (.ok ⟨.whitespace, p⟩), ⟨d :: rest, q⟩) := by
      simp only [scan, h]
    rw [lex_of_scan_some hscan, lex_of_scan_some (hlexeme hrest)]
    rfl

-- Induction from one lexeme to the next.
theorem lexemes_induction {P : List Char → Position → Prop} (multibyte : Bool)
    (h₁ : ∀ cs p rest q start, gap false none p cs = ⟨.error start, rest, q⟩ → P cs p)
    (h₂ : ∀ cs p blank q, gap false none p cs = ⟨.ok blank, [], q⟩ → P cs p)
    (h₃ : ∀ cs p blank d rest q, gap false none p cs = ⟨.ok blank, d :: rest, q⟩ →
      P (lexeme multibyte d rest).rest (q.after (lexeme multibyte d rest).taken) → P cs p)
    (cs : List Char) (p : Position) : P cs p := by
  induction hn : cs.length using Nat.strongRecOn generalizing cs p
  case ind n ih =>
    have hle := (Lexing.gap_suffix false none p cs).length_le
    cases hg : gap false none p cs
    case mk result rest q =>
      cases result
      case error start => exact h₁ cs p rest q start hg
      case ok blank =>
        cases rest
        case nil => exact h₂ cs p blank q hg
        case cons d rest =>
          rw [hg] at hle
          have := Lexing.lexeme_rest_length multibyte d rest
          refine h₃ cs p blank d rest q hg (ih _ ?_ _ _ rfl)
          simp only [List.length_cons] at hle
          omega

/-! ### The first text -/

theorem hasClosing_of_lex {cs : List Char} {p : Position}
    (h : ∃ result ∈ (lex multibyte ⟨cs, p⟩).1, isClosing result) : hasClosing cs := by
  obtain ⟨result, hm, hc⟩ := h
  induction cs, p using lexemes_induction multibyte
  case h₁ hg =>
    rw [lex_of_gap_error hg, List.mem_singleton] at hm
    subst hm
    cases hc
  case h₂ blank _ hg =>
    rw [lex_of_gap_nil hg] at hm
    cases blank
    case false => cases hm
    case true =>
      obtain rfl := List.mem_singleton.mp hm
      cases hc
  case h₃ cs p blank d rest q hg ih =>
    have hsuffix : d :: rest <:+ cs := by
      have := Lexing.gap_suffix false none p cs
      rwa [hg] at this
    refine Lexing.hasClosing_of_suffix hsuffix ?_
    rw [lex_of_gap_cons hg, List.mem_append, List.mem_cons] at hm
    rcases hm with hm | rfl | hm
    · cases blank
      case false => cases hm
      case true =>
        obtain rfl := List.mem_singleton.mp hm
        cases hc
    · obtain ⟨t, ht, hc⟩ := isClosing_place hc
      simp [hasClosing, Lexing.isClosing_of_lexeme ht hc]
    · exact Lexing.hasClosing_of_suffix ⟨_, Lexing.lexeme_append multibyte d rest⟩ (ih hm)

-- Where the lexer stands when the tokens of the first text are taken: in front of nothing but
-- white space and comments.
theorem exists_front {cs : List Char} {p : Position} (h : endsStatement (lex multibyte ⟨cs, p⟩).1) :
    ∃ front w q b r, gap false none q w = ⟨.ok b, [], r⟩ ∧
      ∀ ds, lex multibyte ⟨cs ++ ds, p⟩ =
        (front ++ (lex multibyte ⟨w ++ ds, q⟩).1, (lex multibyte ⟨w ++ ds, q⟩).2) := by
  induction cs, p using lexemes_induction multibyte
  case h₁ hg =>
    rw [lex_of_gap_error hg] at h
    cases h
  case h₂ cs p blank q hg => exact ⟨[], cs, p, blank, q, hg, fun ds => rfl⟩
  case h₃ cs p blank d rest q hg ih =>
    rw [lex_of_gap_cons hg, endsStatement_blanks] at h
    obtain ⟨hbehind, hclosing⟩ := endsStatement_cons h
    obtain ⟨front, w, r, b, s, hw, hfront⟩ := ih hbehind
    -- The lexeme and the gap in front of it are the same in front of another text.
    have hlocal (ds : List Char) :
        lexeme multibyte d (rest ++ ds) = (lexeme multibyte d rest).followed ds ∧
          hasClosing (d :: rest) := by
      by_cases hall : (lex multibyte ⟨(lexeme multibyte d rest).rest,
        q.after (lexeme multibyte d rest).taken⟩).1.all isBlank
      case pos =>
        have hplace := (hclosing hall).resolve_left (by simp [not_isBlank_place])
        obtain ⟨t, ht, hc⟩ := isClosing_place hplace
        have hd := Lexing.isClosing_of_lexeme ht hc
        exact ⟨by simp [Lexing.lexeme_closing hd, Lexing.Lexeme.followed], by simp [hasClosing, hd]⟩
      case neg =>
        have hrest := hasClosing_of_lex (exists_isClosing hbehind hall)
        exact ⟨Lexing.lexeme_followed hrest,
          Lexing.hasClosing_of_suffix ⟨_, Lexing.lexeme_append multibyte d rest⟩ hrest⟩
    refine ⟨blanks blank p ++ place q (lexeme multibyte d rest) :: front, w, r, b, s, hw,
      fun ds => ?_⟩
    obtain ⟨hlexeme, hd⟩ := hlocal ds
    have hstarts := @Lexing.startsGap_gap cs false none p blank (by rw [hg])
    rw [hg, ← @Lexing.startsGap_followed (d :: rest) ds hd] at hstarts
    have hgap := Lexing.gap_append hg hstarts
    rw [lex_of_gap_cons hgap, hlexeme]
    have := hfront ds
    simp only [Lexing.Lexeme.followed, this, List.append_assoc, List.cons_append]
    rfl

/-! ### The second text -/

theorem unplaced_blanks {blank : Bool} :
    (blanks blank p).map unplaced = (blanks blank q).map unplaced := by
  cases blank <;> rfl

theorem unplaced_place {l : Lexing.Lexeme} : unplaced (place p l) = unplaced (place q l) := by
  unfold place
  split <;> rfl

-- Where a text stands does not matter to its tokens.
theorem unplaced_lex (p' : Position) : (lex multibyte ⟨cs, p'⟩).1.map unplaced =
    (lex multibyte ⟨cs, p⟩).1.map unplaced := by
  induction cs, p using lexemes_induction multibyte generalizing p'
  case h₁ cs p rest q start hg =>
    obtain ⟨start', q', hg'⟩ := Lexing.gap_error_at p' hg
    rw [lex_of_gap_error hg, lex_of_gap_error hg']
    rfl
  case h₂ cs p blank q hg =>
    obtain ⟨q', hg'⟩ := Lexing.gap_ok_at p' hg
    rw [lex_of_gap_nil hg, lex_of_gap_nil hg', unplaced_blanks]
  case h₃ cs p blank d rest q hg ih =>
    obtain ⟨q', hg'⟩ := Lexing.gap_ok_at p' hg
    rw [lex_of_gap_cons hg, lex_of_gap_cons hg']
    simp only [List.map_append, List.map_cons, ih]
    rw [@unplaced_blanks p' p, @unplaced_place q' q]

-- The results behind white space in front.
def dropBlanks (results : List Lexed) : List Lexed :=
  results.dropWhile isBlank

theorem dropBlanks_blanks {blank : Bool} :
    dropBlanks ((blanks blank p ++ results).map unplaced) = dropBlanks (results.map unplaced) := by
  cases blank <;> rfl

-- White space and comments in front of a text do not matter to the tokens behind them.
theorem dropBlanks_lex_gap {w : List Char} {blank : Bool} {r : Position}
    (h : gap false none q w = ⟨.ok blank, [], r⟩) :
    dropBlanks ((lex multibyte ⟨w ++ ds, q⟩).1.map unplaced) =
      dropBlanks ((lex multibyte ⟨ds, p⟩).1.map unplaced) := by
  have hgap : gap false none q (w ++ ds) = gap blank none r ds := Lexing.gap_gap h
  obtain ⟨hrest, hresult⟩ := @Lexing.gap_at ds blank none r none p rfl
  obtain ⟨hrest', hresult'⟩ := @Lexing.gap_blank ds blank none p false
  rw [← hgap] at hrest hresult
  rw [hrest] at hrest'
  rw [hresult] at hresult'
  cases hw : gap false none q (w ++ ds)
  case mk found rest s =>
    cases hd : gap false none p ds
    case mk found' rest' s' =>
      rw [hw, hd] at hrest' hresult'
      obtain rfl : rest' = rest := hrest'
      cases found
      case error =>
        cases found'
        case error => rw [lex_of_gap_error hw, lex_of_gap_error hd]; rfl
        case ok => cases hresult'
      case ok =>
        cases found'
        case error => cases hresult'
        case ok =>
          cases rest'
          case nil =>
            rw [lex_of_gap_nil hw, lex_of_gap_nil hd]
            simpa using (@dropBlanks_blanks q [] _).trans (@dropBlanks_blanks p [] _).symm
          case cons d rest =>
            rw [lex_of_gap_cons hw, lex_of_gap_cons hd]
            simp only [dropBlanks_blanks, List.map_cons]
            rw [@unplaced_place s s', unplaced_lex]

/-! ### Both texts -/

theorem dropBlanks_lex_lineEnd : dropBlanks ((lex multibyte ⟨'\n' :: ds, q⟩).1.map unplaced) =
    dropBlanks ((lex multibyte ⟨ds, p⟩).1.map unplaced) :=
  @dropBlanks_lex_gap multibyte ds p q ['\n'] true (q.next '\n') rfl

-- The tokens of a text and of another behind it, of which the first ends a statement.
theorem exists_lex_append {t₁ t₂ : String} (h : endsStatement ((ofText t₁).lex multibyte).1) :
    ∃ front blank q results, ((ofText t₁).lex multibyte).1 = front ++ blanks blank q ∧
      ((ofText (t₁ ++ t₂)).lex multibyte).1 = front ++ results ∧
      dropBlanks (results.map unplaced) =
        dropBlanks (((ofText t₂).lex multibyte).1.map unplaced) := by
  obtain ⟨front, w, q, blank, r, hw, hfront⟩ := exists_front h
  have hfirst : ((ofText t₁).lex multibyte).1 = front ++ blanks blank q := by
    have := hfront []
    rw [List.append_nil, List.append_nil, lex_of_gap_nil hw] at this
    exact congrArg Prod.fst this
  obtain hunify | ⟨ds, ht, hunify⟩ := @Text.unifyLineEnds_append t₁.toList t₂.toList
  case inl =>
    refine ⟨front, blank, q, _, hfirst, ?_, dropBlanks_lex_gap hw⟩
    rw [ofText, String.toList_append, hunify, hfront]
  case inr =>
    refine ⟨front, blank, q, (lex multibyte ⟨w ++ Text.unifyLineEnds ds, q⟩).1, hfirst, ?_, ?_⟩
    · rw [ofText, String.toList_append, hunify, hfront]
    · rw [@dropBlanks_lex_gap multibyte _ .start q w blank r hw, ofText, ht]
      exact dropBlanks_lex_lineEnd.symm

end Cursor
end Stylesheet
