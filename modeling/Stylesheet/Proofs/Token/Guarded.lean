import Stylesheet.Proofs.Number.Literals
import Stylesheet.Proofs.Token.Progress
import Stylesheet.Proofs.Token.Respelled
/-!
What the lexer has looked at before it reads. Wherever it decodes an escape there is a character
behind the backslash, and wherever it reads a number there is a literal; so no text has the faults
that are kept for the opposite. Main statement: `Lexer.guarded_calls`.
-/

namespace Stylesheet

/-! ### Faults -/

-- The faults that a text may have.
inductive LexicalFault.IsFound : LexicalFault → Prop
  | unterminatedComment : IsFound .unterminatedComment
  | unterminatedString : IsFound .unterminatedString
  | unterminatedUrl : IsFound .unterminatedUrl
  | malformedUrl : IsFound .malformedUrl
  | invalidEscape : IsFound .invalidEscape
  | invalidEscapeInUrl : IsFound .invalidEscapeInUrl
  | notAscii (c : Char) : IsFound (.notAscii c)
  | numberOutOfRange {written : String} (h : Decimal.IsLiteral written.toList) :
      IsFound (.numberOutOfRange written)

theorem append_ne_message {front behind : String} {c : Char} (h : front.toList.head? = some c)
    (hc : c ≠ 'i') : front ++ behind ≠ "invalid escape at end of input" ∧
      ¬"invalid number".toList <+: (front ++ behind).toList := by
  have hhead : (front ++ behind).toList.head? = some c := by
    rw [String.toList_append, List.head?_append, h]
    rfl
  generalize front ++ behind = message at hhead
  constructor
  · rintro rfl
    exact hc (Option.some.inj hhead).symm
  · rintro ⟨rest, hrest⟩
    rw [← hrest] at hhead
    exact hc (Option.some.inj hhead).symm

theorem LexicalFault.IsFound.message_ne {fault : LexicalFault} (h : fault.IsFound) :
    fault.message ≠ "invalid escape at end of input" ∧
      ¬"invalid number".toList <+: fault.message.toList := by
  cases h
  case notAscii c =>
    have hmessage : (LexicalFault.notAscii c).message =
        "unexpected non-ASCII character '" ++ (toString c ++ "'") := String.append_assoc ..
    rw [hmessage]
    exact append_ne_message rfl (by decide)
  case numberOutOfRange written _ =>
    have hmessage : (LexicalFault.numberOutOfRange written).message =
        "number '" ++ (written ++ "' is out of range") := String.append_assoc ..
    rw [hmessage]
    exact append_ne_message rfl (by decide)
  all_goals decide

namespace Lexing

open Decimal (IsSign IsDigits IsFraction IsExponent IsLiteral)

variable {multibyte : Bool} {pending : Pending} {c quote : Char} {cs : List Char}

/-! ### Escapes -/

theorem Pending.take?_backslash (h : pending ≠ .any) : pending.take? '\\' = none := by
  cases pending
  case nothing => rfl
  case any => exact absurd rfl h
  case hex left code =>
    have hx : Text.isHexDigit '\\' = false := by decide
    have hb : Text.isBlank '\\' = false := by decide
    simp [take?, hx, hb]

theorem Pending.next_eq_any_iff : pending.next c = .any ↔ pending ≠ .any ∧ c = '\\' := by
  constructor
  case mp =>
    intro h
    cases htake : pending.take? c
    case some => exact absurd (by simpa [next, htake] using h) (take?_ne_any htake)
    case none =>
      refine ⟨?_, by simpa [next, htake] using h⟩
      rintro rfl
      cases htake
  case mpr =>
    rintro ⟨hp, rfl⟩
    simp [next, take?_backslash hp]

-- Every backslash that begins an escape has a character behind it. One begins an escape unless an
-- escape in front of it waits for it as its character.
def IsComplete (cs : List Char) : Prop :=
  ∀ front behind, cs = front ++ '\\' :: behind → front.foldl Pending.next .nothing ≠ .any →
    behind ≠ []

theorem isComplete_iff : IsComplete cs ↔ cs.foldl Pending.next .nothing ≠ .any := by
  constructor
  case mp =>
    intro h hany
    obtain rfl | ⟨front, c, rfl⟩ := cs.eq_nil_or_concat
    case inl => cases hany
    case inr =>
      rw [List.concat_eq_append, List.foldl_append] at hany
      obtain ⟨hfront, rfl⟩ := Pending.next_eq_any_iff.mp hany
      exact h front [] (List.concat_eq_append ..) hfront rfl
  case mpr =>
    rintro h front behind rfl hfront rfl
    rw [List.foldl_append] at h
    exact h (Pending.next_eq_any_iff.mpr ⟨hfront, rfl⟩)

theorem exists_unescape_iff :
    (∃ ds, unescape pending cs = .ok ds) ↔ cs.foldl Pending.next pending ≠ .any := by
  induction cs generalizing pending
  case nil => cases pending <;> simp [unescape]
  case cons c cs ih =>
    obtain ⟨f, hf⟩ := exists_unescape_cons pending c
    rw [List.foldl_cons, ← ih, hf]
    cases unescape (pending.next c) cs <;> simp [Except.map]

-- Decoding fails on nothing but an escape that is not complete.
theorem IsComplete.unescape (h : IsComplete cs) : ∃ ds, unescape .nothing cs = .ok ds :=
  exists_unescape_iff.mpr (isComplete_iff.mp h)

-- A span leaves an escape open at the end of the text only, and there only if it was open before or
-- the span takes in a backslash that nothing follows.
theorem of_foldl_spanOf {goes : Char → Bool → Bool}
    (h : (spanOf goes pending cs).1.foldl Pending.next pending = .any) :
    (spanOf goes pending cs).2 = [] ∧ (pending = .any ∧ cs = [] ∨ goes '\\' false) := by
  induction cs generalizing pending
  case nil => exact ⟨rfl, .inl ⟨h, rfl⟩⟩
  case cons c cs ih =>
    rw [spanOf] at h ⊢
    split at h
    case isTrue hc =>
      rw [if_pos hc]
      obtain ⟨hrest, ⟨hnext, rfl⟩ | hgoes⟩ := ih h
      case inl =>
        obtain ⟨hp, rfl⟩ := Pending.next_eq_any_iff.mp hnext
        rw [Pending.take?_backslash hp] at hc
        exact ⟨hrest, .inr hc⟩
      case inr => exact ⟨hrest, .inr hgoes⟩
    case isFalse hc =>
      obtain rfl : pending = .any := h
      exact absurd rfl hc

theorem isComplete_nameSpan : IsComplete (nameSpan multibyte .nothing cs).1 := by
  rw [isComplete_iff, nameSpan_eq]
  intro h
  obtain ⟨-, ⟨hp, -⟩ | hgoes⟩ := of_foldl_spanOf h
  case inl => cases hp
  case inr => cases multibyte <;> cases hgoes

theorem isComplete_targetSpan : IsComplete (targetSpan .nothing cs).1 := by
  rw [isComplete_iff, targetSpan_eq]
  intro h
  obtain ⟨-, ⟨hp, -⟩ | hgoes⟩ := of_foldl_spanOf h
  case inl => cases hp
  case inr => exact absurd hgoes (by decide)

-- A string goes on behind any backslash, but what ends it is behind its content.
theorem stringSpan_eq (pending : Pending) (cs : List Char) : stringSpan quote pending cs =
    spanOf (fun c _ => !(c == '\n' || c == quote)) pending cs := by
  induction cs generalizing pending
  case nil => rfl
  case cons c cs ih =>
    rw [stringSpan, spanOf, Pending.next]
    cases pending.take? c
    case some => simp [ih]
    case none => cases hc : c == '\n' || c == quote <;> simp_all

theorem isComplete_stringSpan (h : (stringSpan quote .nothing cs).2 ≠ []) :
    IsComplete (stringSpan quote .nothing cs).1 := by
  rw [stringSpan_eq] at h ⊢
  rw [isComplete_iff]
  exact fun hany => h (of_foldl_spanOf hany).1

theorem isComplete_quoted {content : List Char} (h : (quoted quote cs).1 = some content) :
    IsComplete content := by
  have hspan := stringSpan_of_quoted (Prod.ext h rfl)
  have hcomplete := @isComplete_stringSpan quote cs
  rw [hspan] at hcomplete
  exact hcomplete (List.cons_ne_nil _ _)

/-! ### Numbers -/

theorem isSign_signSpan (cs : List Char) : IsSign (signSpan cs).1 := by
  fun_cases signSpan cs
  case case1 c rest hc =>
    simp only [Bool.or_eq_true, decide_eq_true_eq] at hc
    obtain rfl | rfl := hc
    · exact .inr (.inl rfl)
    · exact .inr (.inr rfl)
  case case2 | case3 => exact .inl rfl

theorem isDigit_digitSpan (cs : List Char) : ∀ c ∈ (digitSpan cs).1, c.isDigit :=
  List.all_eq_true.mp List.all_takeWhile

theorem isDigits_digitSpan (h : startsDigit cs) : IsDigits (digitSpan cs).1 := by
  obtain ⟨c, digits, hdigits, -⟩ := exists_cons_digitSpan h rfl
  refine ⟨?_, isDigit_digitSpan cs⟩
  rw [digitSpan, hdigits]
  exact List.cons_ne_nil c digits

theorem isFraction_fractionSpan (cs : List Char) : IsFraction (fractionSpan cs).1 := by
  cases hs : startsFraction cs
  case false =>
    rw [fractionSpan_of_not hs]
    exact .none
  case true =>
    obtain ⟨ds, -, hds, hfraction⟩ := fractionSpan_of_startsFraction hs
    rw [hfraction]
    exact .point (isDigits_digitSpan hds)

theorem isExponent_exponentSpan (cs : List Char) : IsExponent (exponentSpan cs).1 := by
  cases hs : startsExponent cs
  case false =>
    rw [exponentSpan_of_not hs]
    exact .none
  case true =>
    obtain ⟨e, ds, sign, digits, -, hletter, hsign, hdigits, hexponent⟩ :=
      exponentSpan_of_startsExponent hs
    have hs := isSign_signSpan ds
    rw [hsign] at hs
    rw [hexponent]
    exact .letter (by simpa [isExponentLetter] using hletter) hs (isDigits_digitSpan hdigits)

theorem startsNumber_eq (cs : List Char) : startsNumber cs = startsUnsigned (signSpan cs).2 := by
  cases cs
  case nil => rfl
  case cons c cs =>
    rw [startsNumber, signSpan]
    by_cases hc : c = '+' ∨ c = '-' <;> simp [hc]

-- What begins as a number has a digit, in front of the point or behind it.
theorem ne_nil_of_startsUnsigned (h : startsUnsigned cs) :
    (digitSpan cs).1 ≠ [] ∨ (fractionSpan (digitSpan cs).2).1 ≠ [] := by
  rw [startsUnsigned_eq, Bool.or_eq_true] at h
  by_cases hd : startsDigit cs
  case pos => exact .inl (isDigits_digitSpan hd).1
  case neg =>
    have hnil : digitSpan [] = ([], []) := rfl
    have hspan : digitSpan cs = ([], cs) := digitSpan_congr hnil (eq_false_of_ne_true hd)
    obtain ⟨ds, -, -, hfraction⟩ := fractionSpan_of_startsFraction (h.resolve_left hd)
    rw [hspan, hfraction]
    exact .inr (List.cons_ne_nil _ _)

theorem isLiteral_numeral (h : startsNumber cs) : IsLiteral (numeral cs).1 := by
  have hn := ne_nil_of_startsUnsigned (startsNumber_eq cs ▸ h)
  exact .mk (isSign_signSpan cs) (isDigit_digitSpan _) (isFraction_fractionSpan _) hn
    (isExponent_exponentSpan _)

example : numeral "-.5e+x".toList = ("-.5".toList, "e+x".toList) := by decide

/-! ### Lexemes -/

variable {mark : Char} {front taken rest written : List Char} {fault : LexicalFault}
  {token : String → Token} {t : Token}

-- Numbers are read off literals, and a fault is none of those that the tests rule out.
structure Lexeme.IsGuarded (l : Lexeme) : Prop where
  number : ∀ value unit written, l.result = .ok (.number value unit written) →
    IsLiteral written.toList
  fault : ∀ trouble, l.result = .error trouble → trouble.fault.IsFound

theorem Lexeme.IsGuarded.error {trouble : Trouble} (h : trouble.fault.IsFound) :
    (⟨.error trouble, taken, rest⟩ : Lexeme).IsGuarded where
  number := by rintro _ _ _ ⟨⟩
  fault := by
    rintro _ ⟨⟩
    exact h

theorem Lexeme.IsGuarded.of_ok (h : ∀ value unit written, t ≠ .number value unit written) :
    (⟨.ok t, taken, rest⟩ : Lexeme).IsGuarded where
  number value unit written ht := absurd (Except.ok.inj ht) (h value unit written)
  fault := by rintro _ ⟨⟩

theorem Lexeme.IsGuarded.decoded (hw : IsComplete written)
    (h : ∀ s value unit written, token s ≠ .number value unit written) :
    (Lexeme.decoded token written taken rest).IsGuarded := by
  obtain ⟨ds, hds⟩ := hw.unescape
  rw [Lexeme.decoded, hds]
  exact of_ok (h _)

theorem isGuarded_string : (string quote cs).IsGuarded := by
  unfold string
  split
  case h_1 hq => exact .decoded (isComplete_quoted (congrArg Prod.fst hq)) (by simp)
  case h_2 => exact .error .unterminatedString

theorem isGuarded_named (h : ∀ s value unit written, token s ≠ .number value unit written) :
    (named multibyte token mark cs).IsGuarded :=
  .decoded isComplete_nameSpan h

theorem isGuarded_quotedUrl : (quotedUrl front quote cs).IsGuarded := by
  unfold quotedUrl
  split
  case h_1 => exact .error .unterminatedString
  case h_2 hq =>
    dsimp only
    split
    · exact .error .unterminatedUrl
    · split
      · exact .decoded (isComplete_quoted (congrArg Prod.fst hq)) (by simp)
      · exact .error .malformedUrl

theorem isGuarded_bareUrl : (bareUrl front cs).IsGuarded := by
  unfold bareUrl
  dsimp only
  split
  case h_1 => exact .error .unterminatedUrl
  case h_2 => exact .decoded isComplete_targetSpan (by simp)
  case h_3 => exact .error .invalidEscapeInUrl
  case h_4 => exact .error .malformedUrl

theorem isGuarded_url : (url front cs).IsGuarded := by
  unfold url
  dsimp only
  split
  · exact isGuarded_bareUrl
  · split
    · exact isGuarded_quotedUrl
    · exact isGuarded_bareUrl

theorem isGuarded_identifierLike : (identifierLike multibyte cs).IsGuarded := by
  obtain ⟨name, hname⟩ := (@isComplete_nameSpan multibyte cs).unescape
  unfold identifierLike
  dsimp only
  split
  case h_1 =>
    rw [hname]
    dsimp only
    split
    · exact isGuarded_url
    · exact .of_ok (by simp)
  case h_2 => exact .decoded isComplete_nameSpan (by simp)

theorem exists_unit (multibyte : Bool) (cs : List Char) : ∃ u, (unit multibyte cs).1 = .ok u := by
  unfold unit
  split
  case h_1 => exact ⟨_, rfl⟩
  case h_2 =>
    obtain ⟨name, hname⟩ := (@isComplete_nameSpan multibyte cs).unescape
    split
    · dsimp only
      rw [hname]
      exact ⟨_, rfl⟩
    · exact ⟨_, rfl⟩

theorem isGuarded_number (h : startsNumber cs) : (number multibyte cs).IsGuarded := by
  have hliteral := isLiteral_numeral h
  obtain ⟨decimal, hdecimal⟩ := Decimal.ofChars?_of_isLiteral hliteral
  obtain ⟨u, hu⟩ := exists_unit multibyte (numeral cs).2
  rw [← @String.toList_ofList (numeral cs).1] at hliteral
  simp only [number, hdecimal, hu]
  split
  case h_1 he => cases he
  case h_2 => exact .error (.numberOutOfRange hliteral)
  case h_3 =>
    refine ⟨?_, by simp⟩
    rintro _ _ _ ⟨⟩
    exact hliteral

theorem isGuarded_lexeme : (lexeme multibyte c rest).IsGuarded := by
  fun_cases lexeme
  case case1 => exact isGuarded_string
  case case2 | case3 => exact isGuarded_named (by simp)
  case case4 h => exact isGuarded_number h
  case case5 => exact isGuarded_identifierLike
  case case6 => exact .error .invalidEscape
  case case7 =>
    refine .of_ok fun value unit written => ?_
    unfold single
    split <;> simp
  case case8 => exact .error (.notAscii c)

-- What the readers find behind the tests for them, whatever the text. Escapes have their
-- characters, so that a name is decoded in any case. Only a string may end in an open one, where
-- the text ends, but that string is not decoded. A number is read off a literal, which has a value.
structure Guards (multibyte : Bool) : Prop where
  name (cs : List Char) : IsComplete (nameSpan multibyte .nothing cs).1 ∧
    ∃ name, unescape .nothing (nameSpan multibyte .nothing cs).1 = .ok name
  string (quote : Char) (cs : List Char) :
    (stringSpan quote .nothing cs).2 ≠ [] → IsComplete (stringSpan quote .nothing cs).1
  content (quote : Char) (cs content : List Char) :
    (quoted quote cs).1 = some content → IsComplete content
  target (cs : List Char) : IsComplete (targetSpan .nothing cs).1
  number (cs : List Char) : startsNumber cs →
    IsLiteral (numeral cs).1 ∧ ∃ d, Decimal.ofChars? (numeral cs).1 = some d

theorem guards (multibyte : Bool) : Guards multibyte where
  name _ := ⟨isComplete_nameSpan, isComplete_nameSpan.unescape⟩
  string _ _ := isComplete_stringSpan
  content _ _ _ := isComplete_quoted
  target _ := isComplete_targetSpan
  number _ h := ⟨isLiteral_numeral h, Decimal.ofChars?_of_isLiteral (isLiteral_numeral h)⟩

end Lexing

namespace Cursor

variable {multibyte : Bool} {c : Cursor} {p : Position} {result : Lexed}

structure IsGuarded (result : Lexed) : Prop where
  number : ∀ value unit written p, result = .ok ⟨.number value unit written, p⟩ →
    Decimal.IsLiteral written.toList
  fault : ∀ d, result = .error d → ∃ fault : LexicalFault, d.fault = .lexical fault ∧ fault.IsFound
  message_ne : ∀ d, result = .error d → d.message ≠ "invalid escape at end of input" ∧
    ¬"invalid number".toList <+: d.message.toList

theorem isGuarded_ok {t : Placed} (h : ∀ value unit written,
    t.token = .number value unit written → Decimal.IsLiteral written.toList) :
    IsGuarded (.ok t) where
  number := by
    rintro value unit written p ⟨⟩
    exact h value unit written rfl
  fault := by simp
  message_ne := by simp

theorem isGuarded_error {fault : LexicalFault} (h : fault.IsFound) :
    IsGuarded (.error ⟨.lexical fault, p⟩) where
  number := by simp
  fault := by
    rintro _ ⟨⟩
    exact ⟨fault, rfl, h⟩
  message_ne := by
    rintro _ ⟨⟩
    exact h.message_ne

theorem isGuarded_place {l : Lexing.Lexeme} (h : l.IsGuarded) : IsGuarded (place p l) := by
  unfold place
  split
  case h_1 ht =>
    refine isGuarded_ok fun value unit written hnumber => ?_
    exact h.number value unit written (ht.trans (congrArg Except.ok hnumber))
  case h_2 ht => exact isGuarded_error (h.fault _ ht)

theorem isGuarded_scan (h : (c.scan multibyte).1 = some result) : IsGuarded result := by
  unfold scan at h
  dsimp only at h
  split at h <;> cases h
  case h_1 => exact isGuarded_error .unterminatedComment
  case h_2 => exact isGuarded_ok (by simp)
  case h_4 => exact isGuarded_place Lexing.isGuarded_lexeme

end Cursor

namespace Lexer

-- No call runs into an escape without a character, or into a number that is no literal.
theorem guarded_calls (multibyte : Bool) (text : String) :
    Lexing.Guards multibyte ∧ ∀ n result,
      ((ofText multibyte text).calls n).next.1 = some result → Cursor.IsGuarded result := by
  refine ⟨Lexing.guards multibyte, fun n result h => ?_⟩
  rw [next_of_ahead_none (ahead_calls n)] at h
  exact Cursor.isGuarded_scan h

end Lexer
end Stylesheet
