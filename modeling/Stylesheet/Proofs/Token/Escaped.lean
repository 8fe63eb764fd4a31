import Stylesheet.Proofs.Text.Case
import Stylesheet.Text.Escaped
import Stylesheet.Token.Scan
/-!
Names and strings as they are written. The span of one is what was written, whatever follows it,
and decoding it yields the text again; only NUL is lost. Main statements: `nameSpan_identifierChars`,
`unescape_identifierChars`, `stringSpan_stringChars`, `unescape_stringChars`.
-/

namespace Stylesheet.Lexing

open Text

variable {c : Char} {cs ds rest : List Char}

-- What is taken off the text in front of a span belongs to it.
def prepend (cs : List Char) (s : Span) : Span :=
  (cs ++ s.1, s.2)

theorem prepend_prepend (s : Span) : prepend cs (prepend ds s) = prepend (cs ++ ds) s := by
  simp [prepend]

/-! ### Codes -/

-- Whether an escape of one or two digits stands for a character.
def isCodeOf (c : Char) : List Char → Bool
  | ['\\', h, ' '] => isHexDigit h && hexValue h == c.toNat
  | ['\\', h, i, ' '] => isHexDigit h && isHexDigit i && 16 * hexValue h + hexValue i == c.toNat
  | _ => false

theorem code_eq (h : isAscii c) :
    (∃ h, Escaped.code c = ['\\', h, ' '] ∧ isHexDigit h ∧ hexValue h = c.toNat) ∨
      ∃ h i, Escaped.code c = ['\\', h, i, ' '] ∧ isHexDigit h ∧ isHexDigit i ∧
        16 * hexValue h + hexValue i = c.toNat := by
  have hc := of_isAscii (p := fun c => isCodeOf c (Escaped.code c)) (by decide) h
  unfold isCodeOf at hc
  split at hc
  case h_1 h he =>
    simp only [Bool.and_eq_true, beq_iff_eq] at hc
    exact .inl ⟨h, he, hc⟩
  case h_2 h i he =>
    simp only [Bool.and_eq_true, beq_iff_eq] at hc
    exact .inr ⟨h, i, he, hc.1.1, hc.1.2, hc.2⟩
  case h_3 => cases hc

theorem ne_newline_of_isHexDigit (h : isHexDigit c) : c ≠ '\n' := by
  rintro rfl
  cases h

theorem charOfCode_toNat (h : c.toNat ≠ 0) : charOfCode c.toNat = c := by
  have hv : c.toNat.isValidChar := c.valid
  rw [charOfCode, dif_pos hv, if_neg h]
  rfl

theorem isHexDigit_blank : isHexDigit ' ' = false := by
  decide

theorem isBlank_blank : isBlank ' ' = true := by
  decide

theorem not_isNameChar_backslash : isNameChar true '\\' = false := by
  decide

theorem nameSpan_code (h : isAscii c) : nameSpan true .nothing (Escaped.code c ++ ds) =
    prepend (Escaped.code c) (nameSpan true .nothing ds) := by
  rcases code_eq h with ⟨h, he, hh, _⟩ | ⟨h, i, he, hh, hi, _⟩ <;>
    simp_all [nameSpan, Pending.take?, startsEscape, ne_newline_of_isHexDigit, extend, prepend,
      isHexDigit_blank, isBlank_blank, not_isNameChar_backslash]

theorem stringSpan_code {quote : Char} (hq : quote ≠ '\\') (h : isAscii c) :
    stringSpan quote .nothing (Escaped.code c ++ ds) =
      prepend (Escaped.code c) (stringSpan quote .nothing ds) := by
  rcases code_eq h with ⟨h, he, hh, _⟩ | ⟨h, i, he, hh, hi, _⟩ <;>
    simp_all [stringSpan, Pending.take?, extend, prepend, isHexDigit_blank, isBlank_blank,
      Ne.symm hq]

theorem unescape_code (h : isAscii c) (hc : c.toNat ≠ 0) :
    unescape .nothing (Escaped.code c ++ ds) = (unescape .nothing ds).map (c :: ·) := by
  have hn := charOfCode_toNat hc
  rcases code_eq h with ⟨h, he, hh, hv⟩ | ⟨h, i, he, hh, hi, hv⟩ <;>
    simp_all [unescape, isHexDigit_blank, isBlank_blank]

/-! ### Names -/

theorem isAscii_of_isControl (h : Escaped.isControl c) : isAscii c := by
  simp only [Escaped.isControl, Bool.or_eq_true, decide_eq_true_eq, beq_iff_eq] at h
  simp only [isAscii, decide_eq_true_eq]
  omega

theorem isNameChar_eq_isPlain (c : Char) : isNameChar true c = Escaped.isPlain c := by
  simp only [isNameChar, isNameStart, Escaped.isPlain, Char.isAlphanum, Bool.and_true]
  cases c.isAlpha <;> cases c.isDigit <;> cases c == '_' <;> cases c == '-' <;>
    cases isAscii c <;> rfl

-- A character behind a backslash has no meaning of its own in an escape.
theorem of_not_isPlain (hp : ¬Escaped.isPlain c) (hc : ¬Escaped.isControl c) :
    isHexDigit c = false ∧ c ≠ '\n' := by
  have ha : isAscii c := by
    simp only [Escaped.isPlain, Bool.or_eq_true, Bool.not_eq_true', not_or] at hp
    simpa using hp.2
  have := of_isAscii (p := fun c => Escaped.isPlain c || Escaped.isControl c ||
    (!isHexDigit c && c != '\n')) (by decide) ha
  simpa [hp, hc] using this

theorem nameSpan_nameChar (c : Char) (ds : List Char) :
    nameSpan true .nothing (Escaped.nameChar c ++ ds) =
      prepend (Escaped.nameChar c) (nameSpan true .nothing ds) := by
  unfold Escaped.nameChar
  split
  case isTrue =>
    have : isNameChar true '\uFFFD' = true := by decide
    simp [nameSpan, Pending.take?, this, extend, prepend]
  case isFalse =>
    split
    case isTrue hp => simp [nameSpan, Pending.take?, isNameChar_eq_isPlain, hp, extend, prepend]
    case isFalse hp =>
      split
      case isTrue hc => exact nameSpan_code (isAscii_of_isControl hc)
      case isFalse hc =>
        obtain ⟨hh, hn⟩ := of_not_isPlain hp hc
        simp [nameSpan, Pending.take?, not_isNameChar_backslash, startsEscape, hh, hn, extend,
          prepend]

theorem unescape_nameChar (hc : c.toNat ≠ 0) (ds : List Char) :
    unescape .nothing (Escaped.nameChar c ++ ds) = (unescape .nothing ds).map (c :: ·) := by
  rw [Escaped.nameChar, if_neg hc]
  split
  case isTrue hp =>
    have hb : c ≠ '\\' := by
      rintro rfl
      cases hp
    simp [unescape, hb]
  case isFalse hp =>
    split
    case isTrue h => exact unescape_code (isAscii_of_isControl h) hc
    case isFalse h =>
      obtain ⟨hh, hn⟩ := of_not_isPlain hp h
      simp [unescape, hh, hn]

theorem nameSpan_nameChars (cs rest : List Char) :
    nameSpan true .nothing (Escaped.nameChars cs ++ rest) =
      prepend (Escaped.nameChars cs) (nameSpan true .nothing rest) := by
  induction cs
  case nil => rfl
  case cons c cs ih =>
    simp only [Escaped.nameChars, List.flatMap_cons, List.append_assoc] at ih ⊢
    rw [nameSpan_nameChar, ih, prepend_prepend]

theorem unescape_nameChars (h : ∀ c ∈ cs, c.toNat ≠ 0) (ds : List Char) :
    unescape .nothing (Escaped.nameChars cs ++ ds) = (unescape .nothing ds).map (cs ++ ·) := by
  induction cs
  case nil => cases h : unescape .nothing ds <;> simp [Escaped.nameChars, h, Except.map]
  case cons c cs ih =>
    obtain ⟨hc, hr⟩ := List.forall_mem_cons.mp h
    simp only [Escaped.nameChars, List.flatMap_cons, List.append_assoc] at ih ⊢
    rw [unescape_nameChar hc, ih hr]
    cases unescape .nothing ds <;> rfl

/-! ### Identifiers -/

-- Whether a name ends in front of a text.
def EndsName (rest : List Char) : Prop :=
  nameSpan true .nothing rest = ([], rest)

theorem nameSpan_leadingChars (cs rest : List Char) :
    nameSpan true .nothing (Escaped.leadingChars cs ++ rest) =
      prepend (Escaped.leadingChars cs) (nameSpan true .nothing rest) := by
  cases cs
  case nil => rfl
  case cons c cs =>
    rw [Escaped.leadingChars, List.append_assoc]
    split
    case isTrue h => rw [nameSpan_code (isAscii_of_isDigit h), nameSpan_nameChars, prepend_prepend]
    case isFalse => rw [nameSpan_nameChar, nameSpan_nameChars, prepend_prepend]

theorem unescape_leadingChars (h : ∀ c ∈ cs, c.toNat ≠ 0) (ds : List Char) :
    unescape .nothing (Escaped.leadingChars cs ++ ds) =
      (unescape .nothing ds).map (cs ++ ·) := by
  cases cs
  case nil => exact unescape_nameChars h ds
  case cons c cs =>
    obtain ⟨hc, hr⟩ := List.forall_mem_cons.mp h
    have hmap : (unescape .nothing (Escaped.nameChars cs ++ ds)).map (c :: ·) =
        (unescape .nothing ds).map (c :: cs ++ ·) := by
      rw [unescape_nameChars hr]
      cases unescape .nothing ds <;> rfl
    rw [Escaped.leadingChars, List.append_assoc]
    split
    case isTrue h => rw [unescape_code (isAscii_of_isDigit h) hc, hmap]
    case isFalse => rw [unescape_nameChar hc, hmap]

theorem nameChar_hyphen : Escaped.nameChar '-' = ['-'] := by
  decide

theorem nameSpan_identifierChars (h : EndsName rest) :
    nameSpan true .nothing (Escaped.identifierChars cs ++ rest) =
      (Escaped.identifierChars cs, rest) := by
  have he (ds : List Char) : prepend ds (nameSpan true .nothing rest) = (ds, rest) := by
    rw [h, prepend, List.append_nil]
  have hyphen (ds : List Char) : nameSpan true .nothing ('-' :: ds) =
      prepend ['-'] (nameSpan true .nothing ds) := nameSpan_nameChar '-' ds
  fun_cases Escaped.identifierChars cs
  case case1 cs =>
    rw [List.cons_append, List.cons_append, hyphen, hyphen, nameSpan_nameChars, prepend_prepend,
      prepend_prepend, he]
    rfl
  case case2 =>
    have hh : isHexDigit '-' = false := by decide
    have hr : nameSpan true .nothing rest = ([], rest) := h
    simp [nameSpan, Pending.take?, not_isNameChar_backslash, startsEscape, extend, hr, hh]
  case case3 cs _ _ =>
    rw [List.cons_append, hyphen, nameSpan_leadingChars, prepend_prepend, he]
    rfl
  case case4 => rw [nameSpan_leadingChars, he]

theorem unescape_identifierChars (h : ∀ c ∈ cs, c.toNat ≠ 0) :
    unescape .nothing (Escaped.identifierChars cs) = .ok cs := by
  have hyphen (ds : List Char) : unescape .nothing ('-' :: ds) =
      (unescape .nothing ds).map ('-' :: ·) :=
    @unescape_nameChar '-' (by decide) ds
  fun_cases Escaped.identifierChars cs
  case case1 cs =>
    have := @unescape_nameChars cs (fun c hc => h c (by simp [hc])) []
    rw [hyphen, hyphen, ← List.append_nil (Escaped.nameChars cs), this]
    simp [unescape, Except.map]
  case case2 =>
    simp [unescape, Except.map, (by decide : isHexDigit '-' = false)]
  case case3 cs _ _ =>
    have := @unescape_leadingChars cs (fun c hc => h c (by simp [hc])) []
    rw [hyphen, ← List.append_nil (Escaped.leadingChars cs), this]
    simp [unescape, Except.map]
  case case4 =>
    have := unescape_leadingChars h []
    rw [← List.append_nil (Escaped.leadingChars cs), this]
    simp [unescape, Except.map]

/-! ### Strings -/

theorem stringSpan_stringChar (c : Char) (ds : List Char) :
    stringSpan '\x22' .nothing (Escaped.stringChar c ++ ds) =
      prepend (Escaped.stringChar c) (stringSpan '\x22' .nothing ds) := by
  unfold Escaped.stringChar
  split
  case isTrue => simp [stringSpan, Pending.take?, extend, prepend]
  case isFalse =>
    split
    case isTrue h =>
      simp only [Bool.or_eq_true, decide_eq_true_eq] at h
      have hh : isHexDigit c = false := by rcases h with rfl | rfl <;> decide
      simp [stringSpan, Pending.take?, hh, extend, prepend]
    case isFalse h =>
      simp only [Bool.or_eq_true, decide_eq_true_eq, not_or] at h
      split
      case isTrue hc => exact stringSpan_code (by decide) (isAscii_of_isControl hc)
      case isFalse hc =>
        have hn : c ≠ '\n' := by
          rintro rfl
          exact hc (by decide)
        simp [stringSpan, Pending.take?, h, hn, extend, prepend]

theorem unescape_stringChar (hc : c.toNat ≠ 0) (ds : List Char) :
    unescape .nothing (Escaped.stringChar c ++ ds) = (unescape .nothing ds).map (c :: ·) := by
  rw [Escaped.stringChar, if_neg hc]
  split
  case isTrue h =>
    simp only [Bool.or_eq_true, decide_eq_true_eq] at h
    have hh : isHexDigit c = false := by rcases h with rfl | rfl <;> decide
    have hn : c ≠ '\n' := by rcases h with rfl | rfl <;> decide
    simp [unescape, hh, hn]
  case isFalse h =>
    simp only [Bool.or_eq_true, decide_eq_true_eq, not_or] at h
    split
    case isTrue hcc => exact unescape_code (isAscii_of_isControl hcc) hc
    case isFalse => simp [unescape, h]

theorem stringSpan_stringChars (cs rest : List Char) :
    stringSpan '\x22' .nothing (cs.flatMap Escaped.stringChar ++ '\x22' :: rest) =
      (cs.flatMap Escaped.stringChar, '\x22' :: rest) := by
  induction cs
  case nil => simp [stringSpan, Pending.take?]
  case cons c cs ih =>
    rw [List.flatMap_cons, List.append_assoc, stringSpan_stringChar, ih]
    rfl

theorem unescape_stringChars (h : ∀ c ∈ cs, c.toNat ≠ 0) :
    unescape .nothing (cs.flatMap Escaped.stringChar) = .ok cs := by
  induction cs
  case nil => rfl
  case cons c cs ih =>
    obtain ⟨hc, hr⟩ := List.forall_mem_cons.mp h
    rw [List.flatMap_cons, unescape_stringChar hc, ih hr]
    rfl

theorem identifierChars_letters (h : ∀ c ∈ cs, c.isAlpha) : Escaped.identifierChars cs = cs := by
  have hname (c : Char) (hc : c ∈ cs) : Escaped.nameChar c = [c] ∧ c ≠ '-' ∧ c.isDigit = false := by
    have := of_isAscii (p := fun c => !c.isAlpha ||
      decide (Escaped.nameChar c = [c] ∧ c ≠ '-' ∧ c.isDigit = false)) (by decide)
      (isAscii_of_isAlpha (h c hc))
    simpa [h c hc] using this
  cases cs
  case nil => rfl
  case cons c cs =>
    obtain ⟨hc, hcs⟩ := List.forall_mem_cons.mp hname
    have hrest : Escaped.nameChars cs = cs := by
      clear h hname
      induction cs
      case nil => rfl
      case cons d ds ih =>
        obtain ⟨hd, hds⟩ := List.forall_mem_cons.mp hcs
        rw [Escaped.nameChars, List.flatMap_cons, hd.1]
        exact congrArg (d :: ·) (ih hds)
    have hlead : Escaped.leadingChars (c :: cs) = c :: cs := by
      simp [Escaped.leadingChars, hc, hrest]
    rw [Escaped.identifierChars, hlead]
    all_goals simp [hc]

end Stylesheet.Lexing
