import Stylesheet.Proofs.Text.LineEnds
import Stylesheet.Proofs.Token.Joined
import Stylesheet.Proofs.Token.ReadBack
/-!
Names and strings as they are written, read alone. Escapes let any content through but NUL; a name
must moreover not be empty, nor begin with white space that no escape is written for. Main
statement: `Token.lexesBack_text`.
-/

namespace Stylesheet

open Text

-- A text that is one token: the token stands where the text begins.
theorem Lexing.Lexes.lex_singleton {cs : List Char} {t : Token} (h : Lexes cs [t] [])
    (p : Position) : (Cursor.lex true ⟨cs, p⟩).1 = [.ok ⟨t, p⟩] := by
  cases h
  case blank blanks cs hn hb hg h =>
    cases h
    obtain ⟨q, hq⟩ := @gap_blanks [] blanks false p hb hg
    have hfound : (false || !blanks.isEmpty) = true := by simpa using hn
    rw [Cursor.lex_of_gap_nil hq, hfound]
    rfl
  case lexeme hg hl h =>
    cases h
    rw [Cursor.lex_of_gap_cons (gap_of_not_startsGap hg), hl]
    simp only [Cursor.lex_nil]
    rfl

namespace Token

variable {s : String}

/-- The text of a token is read as the token and nothing else. -/
def LexesBack (t : Token) : Prop :=
  ((Cursor.ofText t.text).lex true).1 = [.ok ⟨t, .start⟩]

-- Nothing that is written for a token is a line end to unify.
theorem lexesBack_of_lexes {t : Token} (hu : isUnified t.text.toList)
    (h : Lexing.Lexes t.text.toList [t] []) : t.LexesBack := by
  rw [LexesBack, Cursor.ofText, unifyLineEnds_of_isUnified hu]
  exact h.lex_singleton .start

theorem lexesBack_string (h : ∀ c ∈ s.toList, c.toNat ≠ 0) : (string s).LexesBack := by
  refine lexesBack_of_lexes ?unified ?lexes
  case unified => simpa [text, Escaped.quoted] using isUnified_quotedChars s.toList
  case lexes => simpa [text, Escaped.quoted] using @Lexing.lexes_string [] s h

theorem lexesBack_url (h : ∀ c ∈ s.toList, c.toNat ≠ 0) : (url s).LexesBack := by
  refine lexesBack_of_lexes ?unified ?lexes
  case unified =>
    have hquoted := isUnified_quotedChars s.toList
    simp only [text, Escaped.quoted, String.toList_append, String.toList_ofList, isUnified_append]
    exact ⟨⟨by decide, hquoted⟩, by decide⟩
  case lexes => simpa [text, Escaped.quoted] using @Lexing.lexes_url [] s h

theorem lexesBack_atKeyword (hn : s ≠ "") (h : ∀ c ∈ s.toList, c.toNat ≠ 0) :
    (atKeyword s).LexesBack := by
  refine lexesBack_of_lexes ?unified ?lexes
  case unified =>
    have hname := isUnified_identifierChars s.toList
    simp only [text, Escaped.identifier, String.toList_append, String.toList_ofList,
      isUnified_append]
    exact ⟨by decide, hname⟩
  case lexes =>
    have := Lexing.lexes_atKeyword (by simpa using hn) h Lexing.stops_nil.endsName
    simpa [text, Escaped.identifier] using this

theorem lexesBack_hash (hn : s ≠ "") (h : ∀ c ∈ s.toList, c.toNat ≠ 0) : (hash s).LexesBack := by
  refine lexesBack_of_lexes ?unified ?lexes
  case unified =>
    have hname := isUnified_nameChars s.toList
    simp only [text, Escaped.name, String.toList_append, String.toList_ofList, isUnified_append]
    exact ⟨by decide, hname⟩
  case lexes =>
    have := Lexing.lexes_hashName (by simpa using hn) h Lexing.stops_nil.endsName
    simpa [text, Escaped.name] using this

theorem lexesBack_identifier (h : Lexing.isName s.toList) : (identifier s).LexesBack := by
  refine lexesBack_of_lexes ?unified ?lexes
  case unified => simpa [text, Escaped.identifier] using isUnified_identifierChars s.toList
  case lexes => simpa [text, Escaped.identifier] using Lexing.lexes_identifier h Lexing.stops_nil

theorem lexesBack_function (h : Lexing.isName s.toList) (hu : sameWord s "url" = false) :
    (function s).LexesBack := by
  refine lexesBack_of_lexes ?unified ?lexes
  case unified =>
    have hname := isUnified_identifierChars s.toList
    simp only [text, Escaped.identifier, String.toList_append, String.toList_ofList,
      isUnified_append]
    exact ⟨hname, by decide⟩
  case lexes => simpa [text, Escaped.identifier] using @Lexing.lexes_function [] s h hu

/-- Names and strings are read back as they were, whatever they hold besides NUL. A name must not be
empty. White space beyond ASCII is written as it is, so that it may not come first in an identifier,
and a function by the name of `url` would be read as a target. -/
theorem lexesBack_text {s : String} (h : ∀ c ∈ s.toList, c.toNat ≠ 0) :
    (string s).LexesBack ∧ (url s).LexesBack ∧
    (s ≠ "" →
      (atKeyword s).LexesBack ∧ (hash s).LexesBack ∧
      ((∀ c ∈ s.toList.head?, isBlank c → isAscii c) →
        (identifier s).LexesBack ∧ (sameWord s "url" = false → (function s).LexesBack))) := by
  refine ⟨lexesBack_string h, lexesBack_url h, fun hn => ?_⟩
  refine ⟨lexesBack_atKeyword hn h, lexesBack_hash hn h, fun hb => ?_⟩
  have hname : Lexing.isName s.toList := by
    simp only [Lexing.isName, Bool.and_eq_true, Bool.not_eq_true', List.isEmpty_eq_false_iff,
      List.all_eq_true, bne_iff_ne, Option.all_eq_true, Bool.or_eq_true]
    refine ⟨⟨by simpa using hn, h⟩, fun c hc => ?_⟩
    by_cases hblank : isBlank c
    · exact .inl (hb c hc hblank)
    · exact .inr (by simpa using hblank)
  exact ⟨lexesBack_identifier hname, lexesBack_function hname⟩

-- A digit behind a hyphen, a control character in front of a digit, a quote and a backslash.
theorem lexesBack_text_control :
    (function "-1\x01F\x22\\é").LexesBack ∧ (hash "-1\x01F\x22\\é").LexesBack := by
  obtain ⟨-, -, hname⟩ := @lexesBack_text "-1\x01F\x22\\é" (by simp)
  obtain ⟨-, hhash, hidentifier⟩ := hname (by decide)
  have hhyphen : ∀ c ∈ "-1\x01F\x22\\é".toList.head?, isBlank c → isAscii c := by
    rintro c ⟨⟩
    decide
  exact ⟨(hidentifier hhyphen).2 (by decide), hhash⟩

end Token
end Stylesheet
