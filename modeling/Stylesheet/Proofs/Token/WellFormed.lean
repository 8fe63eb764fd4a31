import Stylesheet.Proofs.Token.Joined
import Stylesheet.Proofs.Token.Lookahead
/-!
Texts that the lexer finds nothing wrong with, token by token. Closing braces behind such a text are
so many tokens more. Main statements: `Cursor.tokens_induction`, `Cursor.lex_append_closings`.
-/

namespace Stylesheet

namespace Lexing

variable {multibyte : Bool} {c : Char} {cs ds : List Char}

theorem startsGap_append_cons (h : cs ≠ []) (hc : c ≠ '*') :
    startsGap (cs ++ c :: ds) = startsGap cs := by
  match cs with
  | [] => exact absurd rfl h
  | [b] => by_cases hb : b = '/' <;> simp [startsGap, hb, hc]
  | b :: d :: _ => by_cases hb : b = '/' <;> by_cases hd : d = '*' <;> simp [startsGap, hb, hd]

theorem startsGap_closing : startsGap (cs ++ '}' :: ds) = startsGap cs := by
  cases cs
  case nil => rfl
  case cons c cs => exact startsGap_append_cons (List.cons_ne_nil c cs) (by decide)

-- A closing brace goes on with nothing, except for a backslash that waits for its character.
theorem looksLike_closing (h : cs ≠ ['\\']) (hm : cs ≠ ['-', '\\']) :
    LooksLike multibyte cs (cs ++ '}' :: ds) :=
  looksLike_stop (by decide) (fun h => absurd h (by decide)) h hm

end Lexing

namespace Cursor

open Lexing (gap lexeme)

variable {multibyte : Bool} {cs ds rest : List Char} {p q : Position} {result : Lexed}
  {results : List Lexed}

def isWellFormed (results : List Lexed) : Bool :=
  results.all Except.isOk

-- The tokens among what the lexer finds.
def tokens (results : List Lexed) : List Token :=
  results.filterMap fun result => result.toOption.map (·.token)

theorem isWellFormed_cons :
    isWellFormed (result :: results) ↔ (∃ t, result = .ok t) ∧ isWellFormed results := by
  cases result <;> simp [isWellFormed, Except.isOk, Except.toBool]

theorem isWellFormed_blanks {blank : Bool} :
    isWellFormed (blanks blank p ++ results) = isWellFormed results := by
  cases blank <;> rfl

theorem isWellFormed_unplaced {results : List Lexed} :
    isWellFormed (results.map unplaced) = isWellFormed results := by
  rw [isWellFormed, List.all_map]
  refine congrArg (List.all results) (funext fun result => ?_)
  cases result <;> rfl

theorem tokens_unplaced {results : List Lexed} :
    tokens (results.map unplaced) = tokens results := by
  rw [tokens, List.filterMap_map]
  refine congrArg (List.filterMap · results) (funext fun result => ?_)
  cases result <;> rfl

theorem exists_lexeme_of_place {d : Char} {t : Placed}
    (h : place p (lexeme multibyte d rest) = .ok t) :
    ∃ w r, lexeme multibyte d rest = ⟨.ok t.token, d :: w, r⟩ ∧ rest = w ++ r := by
  have happend := Lexing.lexeme_append multibyte d rest
  have htaken := Lexing.lexeme_taken_ne_nil multibyte d rest
  cases hl : lexeme multibyte d rest
  case mk result taken r =>
    rw [hl] at happend htaken h
    obtain ⟨c, w, rfl⟩ := List.exists_cons_of_ne_nil htaken
    obtain ⟨rfl, rfl⟩ := List.cons.inj happend
    cases result
    case error => cases h
    case ok =>
      cases h
      exact ⟨w, r, rfl, rfl⟩

theorem lex_of_lexeme {blank : Bool} {d : Char} {taken : List Char} {t : Token}
    (hg : gap false none p cs = ⟨.ok blank, d :: rest, q⟩)
    (hl : lexeme multibyte d rest = ⟨.ok t, taken, ds⟩) :
    lex multibyte ⟨cs, p⟩ =
      (blanks blank p ++ .ok ⟨t, q⟩ :: (lex multibyte ⟨ds, q.after taken⟩).1,
        (lex multibyte ⟨ds, q.after taken⟩).2) := by
  rw [lex_of_gap_cons hg, hl]
  rfl

-- Induction from one token of a well-formed text to the next.
theorem tokens_induction {P : ∀ cs p, isWellFormed (lex multibyte ⟨cs, p⟩).1 → Prop}
    (h₁ : ∀ cs p blank q (h : isWellFormed (lex multibyte ⟨cs, p⟩).1),
      gap false none p cs = ⟨.ok blank, [], q⟩ → P cs p h)
    (h₂ : ∀ cs p blank d w r q t (h : isWellFormed (lex multibyte ⟨cs, p⟩).1)
      (hr : isWellFormed (lex multibyte ⟨r, q.after (d :: w)⟩).1),
      gap false none p cs = ⟨.ok blank, d :: (w ++ r), q⟩ →
      lexeme multibyte d (w ++ r) = ⟨.ok t, d :: w, r⟩ → P r (q.after (d :: w)) hr → P cs p h)
    (cs : List Char) (p : Position) (h : isWellFormed (lex multibyte ⟨cs, p⟩).1) : P cs p h := by
  induction cs, p using lexemes_induction multibyte
  case h₁ hg =>
    rw [lex_of_gap_error hg] at h
    cases h
  case h₂ cs p blank q hg => exact h₁ cs p blank q h hg
  case h₃ cs p blank d rest q hg ih =>
    have hlex := h
    rw [lex_of_gap_cons hg, isWellFormed_blanks, isWellFormed_cons] at hlex
    obtain ⟨⟨t, ht⟩, hbehind⟩ := hlex
    obtain ⟨w, r, hlexeme, rfl⟩ := exists_lexeme_of_place ht
    rw [hlexeme] at hbehind ih
    exact h₂ cs p blank d w r q t.token h hbehind hg hlexeme (ih hbehind)

/-! ### Closing braces behind a text -/

-- A closing brace by itself.
theorem lex_closing : lex multibyte ⟨'}' :: ds, p⟩ =
    (.ok ⟨.closeBrace, p⟩ :: (lex multibyte ⟨ds, p.next '}'⟩).1,
      (lex multibyte ⟨ds, p.next '}'⟩).2) := by
  have hgap : gap false none p ('}' :: ds) = ⟨.ok false, '}' :: ds, p⟩ := rfl
  exact lex_of_lexeme hgap (Lexing.lexeme_closing rfl)

-- A backslash that starts no escape is malformed.
theorem startsEscape_of_isWellFormed (h : isWellFormed (lex multibyte ⟨'\\' :: cs, p⟩).1) :
    Lexing.startsEscape ('\\' :: cs) := by
  refine Bool.of_not_eq_false fun he => ?_
  have hgap : gap false none p ('\\' :: cs) = ⟨.ok false, '\\' :: cs, p⟩ := rfl
  have hi : Lexing.startsIdentifier multibyte ('\\' :: cs) = false := by
    rw [Lexing.startsIdentifier_cons (by decide), he]
    cases multibyte <;> rfl
  have hlexeme : lexeme multibyte '\\' cs = .faulty .invalidEscape ['\\'] cs := by
    simp only [lexeme, hi]
    rfl
  rw [lex_of_gap_cons hgap, hlexeme, isWellFormed_blanks, isWellFormed_cons] at h
  obtain ⟨⟨t, ht⟩, -⟩ := h
  cases ht

-- So is one behind a hyphen.
theorem startsEscape_of_isWellFormed_hyphen
    (h : isWellFormed (lex multibyte ⟨'-' :: '\\' :: cs, p⟩).1) :
    Lexing.startsEscape ('\\' :: cs) := by
  refine Bool.of_not_eq_false fun he => ?_
  have hgap : gap false none p ('-' :: '\\' :: cs) = ⟨.ok false, '-' :: '\\' :: cs, p⟩ := rfl
  have hi : Lexing.startsIdentifier multibyte ('-' :: '\\' :: cs) = false := by
    rw [Lexing.startsIdentifier_hyphen, he]
    cases multibyte <;> rfl
  have hlexeme : lexeme multibyte '-' ('\\' :: cs) = ⟨.ok (.delimiter '-'), ['-'], '\\' :: cs⟩ := by
    simp only [lexeme, hi]
    rfl
  rw [lex_of_lexeme hgap hlexeme, isWellFormed_blanks, isWellFormed_cons] at h
  exact absurd (startsEscape_of_isWellFormed h.2) (by simp [he])

-- A closing brace behind a well-formed text is one token more.
theorem lex_append_closing (h : isWellFormed (lex multibyte ⟨cs, p⟩).1) :
    lex multibyte ⟨cs ++ '}' :: ds, p⟩ =
      ((lex multibyte ⟨cs, p⟩).1 ++ (lex multibyte ⟨'}' :: ds, (lex multibyte ⟨cs, p⟩).2⟩).1,
        (lex multibyte ⟨'}' :: ds, (lex multibyte ⟨cs, p⟩).2⟩).2) := by
  induction cs, p, h using tokens_induction
  case h₁ cs p blank q _ hg =>
    have hgap : gap false none p (cs ++ '}' :: ds) = ⟨.ok blank, '}' :: ds, q⟩ := Lexing.gap_gap hg
    rw [lex_of_gap_nil hg, lex_closing, lex_of_lexeme hgap (Lexing.lexeme_closing rfl)]
    rfl
  case h₂ cs p blank d w r q t _ hbehind hg hlexeme ih =>
    have hb : r ≠ ['\\'] := by
      rintro rfl
      cases startsEscape_of_isWellFormed hbehind
    have hm : r ≠ ['-', '\\'] := by
      rintro rfl
      cases startsEscape_of_isWellFormed_hyphen hbehind
    have hlexeme' := Lexing.lexeme_congr hlexeme
      (@Lexing.looksLike_closing _ _ ds hb hm).continuesLess
    have hstarts := @Lexing.startsGap_gap cs false none p blank (by rw [hg])
    rw [hg, ← @Lexing.startsGap_closing _ ds] at hstarts
    have hgap := Lexing.gap_append hg hstarts
    rw [List.append_assoc] at hgap
    rw [lex_of_lexeme hg hlexeme, lex_of_lexeme hgap hlexeme', ih]
    simp only [List.append_assoc, List.cons_append]

theorem lex_closings (k : Nat) (p : Position) : ∃ positions : List Position,
    positions.length = k ∧ (lex multibyte ⟨List.replicate k '}', p⟩).1 =
      positions.map fun p => .ok ⟨.closeBrace, p⟩ := by
  induction k generalizing p
  case zero => exact ⟨[], rfl, congrArg Prod.fst lex_nil⟩
  case succ k ih =>
    obtain ⟨positions, hlength, hlex⟩ := ih (p.next '}')
    refine ⟨p :: positions, by rw [List.length_cons, hlength], ?_⟩
    rw [List.replicate_succ, lex_closing, hlex, List.map_cons]

theorem ofText_append_closings (text : String) (k : Nat) :
    ofText (text ++ String.ofList (List.replicate k '}')) =
      ⟨(ofText text).rest ++ List.replicate k '}', .start⟩ := by
  have hunified : Text.isUnified (List.replicate k '}') := by
    rw [Text.isUnified, List.all_replicate]
    cases k <;> rfl
  obtain happend | ⟨ds, hds, -⟩ := @Text.unifyLineEnds_append text.toList (List.replicate k '}')
  case inl =>
    rw [Text.unifyLineEnds_of_isUnified hunified] at happend
    rw [ofText, String.toList_append, String.toList_ofList, happend]
    rfl
  case inr => cases k <;> simp [List.replicate_succ] at hds

theorem lex_append_closings {text : String}
    (h : isWellFormed ((ofText text).lex multibyte).1) (k : Nat) : ∃ positions : List Position,
      positions.length = k ∧
        ((ofText (text ++ String.ofList (List.replicate k '}'))).lex multibyte).1 =
          ((ofText text).lex multibyte).1 ++ positions.map fun p => .ok ⟨.closeBrace, p⟩ := by
  obtain ⟨positions, hlength, hlex⟩ :=
    @lex_closings multibyte k ((ofText text).lex multibyte).2
  refine ⟨positions, hlength, ?_⟩
  rw [ofText_append_closings, ← hlex]
  cases k
  case zero => simp [lex_nil, ofText]
  case succ k =>
    have happend := @lex_append_closing multibyte _ (List.replicate k '}') .start h
    exact congrArg Prod.fst happend

end Cursor
end Stylesheet
