import Stylesheet.Proofs.Token.Escaped
import Stylesheet.Token.Lexer
/-!
What a text is made of, token by token, whatever follows it. `Lexes cs ts rest` says that tokens `ts`
are taken off `cs` and `rest` is left; texts are put together from the pieces of single tokens.
Main statements: the pieces of all kinds of tokens, and `Lexes.lex`.
-/

namespace Stylesheet.Lexing

open Text

-- Whether white space or a comment is in front of a text.
def startsGap : List Char → Bool
  | '/' :: '*' :: _ => true
  | c :: _ => isBlank c
  | [] => false

-- Taking tokens off a text without a fault. White space in front of a token is taken whole.
inductive Lexes : List Char → List Token → List Char → Prop
  | done {rest : List Char} : Lexes rest [] rest
  | blank {blanks cs rest : List Char} {ts : List Token} (hn : blanks ≠ [])
    (hb : ∀ c ∈ blanks, isBlank c) (hg : startsGap cs = false) (h : Lexes cs ts rest) :
    Lexes (blanks ++ cs) (.whitespace :: ts) rest
  | lexeme {c : Char} {cs taken behind rest : List Char} {t : Token} {ts : List Token}
    (hg : startsGap (c :: cs) = false) (hl : lexeme true c cs = ⟨.ok t, taken, behind⟩)
    (h : Lexes behind ts rest) : Lexes (c :: cs) (t :: ts) rest

namespace Lexes

variable {cs ds rest : List Char} {ts us : List Token}

theorem append (h₁ : Lexes cs ts ds) (h₂ : Lexes ds us rest) : Lexes cs (ts ++ us) rest := by
  induction h₁
  case done => exact h₂
  case blank hn hb hg _ ih => exact blank hn hb hg (ih h₂)
  case lexeme hg hl _ ih => exact lexeme hg hl (ih h₂)

theorem gap_of_not_startsGap {b : Bool} {p : Position} (h : startsGap cs = false) :
    gap b none p cs = ⟨.ok b, cs, p⟩ := by
  unfold startsGap at h
  split at h
  · cases h
  · rename_i c rest hc
    rw [gap]
    · simp [h]
    · exact hc
  · rfl

theorem gap_blanks {blanks : List Char} {b : Bool} {p : Position} (hb : ∀ c ∈ blanks, isBlank c)
    (hg : startsGap cs = false) :
    ∃ q, gap b none p (blanks ++ cs) = ⟨.ok (b || !blanks.isEmpty), cs, q⟩ := by
  induction blanks generalizing b p
  case nil => exact ⟨p, by simpa using gap_of_not_startsGap hg⟩
  case cons c blanks ih =>
    obtain ⟨hc, hr⟩ := List.forall_mem_cons.mp hb
    obtain ⟨q, hq⟩ := @ih true (p.next c) hr
    refine ⟨q, ?_⟩
    rw [List.cons_append, gap]
    · simpa [hc] using hq
    · rintro rest rfl
      cases hc

-- A text that is taken off whole is what the lexer makes of it, at any position.
theorem lex (h : Lexes cs ts []) (p : Position) :
    ∃ (placed : List Placed) (finish : Position),
      Cursor.lex true ⟨cs, p⟩ = (placed.map .ok, finish) ∧
      placed.map Placed.token = ts := by
  generalize hr : [] = rest at h
  induction h generalizing p
  case done =>
    subst hr
    refine ⟨[], p, ?_, rfl⟩
    exact @Cursor.lex_of_scan_none true ⟨[], p⟩ ⟨[], p⟩ rfl
  case blank blanks cs rest ts hn hb hg _ ih =>
    obtain ⟨q, hq⟩ := @gap_blanks cs blanks false p hb hg
    obtain ⟨placed, finish, hl, ht⟩ := ih q hr
    refine ⟨⟨.whitespace, p⟩ :: placed, finish, ?_, by rw [List.map_cons, ht]⟩
    have hscan : Cursor.scan true ⟨blanks ++ cs, p⟩ =
        (some (.ok ⟨.whitespace, p⟩), ⟨cs, q⟩) := by
      have : (false || !blanks.isEmpty) = true := by simpa using hn
      simp only [Cursor.scan, hq, this]
    rw [Cursor.lex_of_scan_some hscan, hl]
    rfl
  case lexeme c cs taken behind rest t ts hg hl _ ih =>
    obtain ⟨placed, finish, hlex, ht⟩ := ih (p.after taken) hr
    refine ⟨⟨t, p⟩ :: placed, finish, ?_, by rw [List.map_cons, ht]⟩
    have hscan : Cursor.scan true ⟨c :: cs, p⟩ =
        (some (.ok ⟨t, p⟩), ⟨behind, p.after taken⟩) := by
      simp only [Cursor.scan, gap_of_not_startsGap hg, hl, Cursor.place]
    rw [Cursor.lex_of_scan_some hscan, hlex]
    rfl

end Lexes
end Stylesheet.Lexing
