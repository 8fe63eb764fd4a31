import Stylesheet.Proofs.Text.LineEnds
import Stylesheet.Proofs.Value.Clean
/-!
The texts of values. A clean value is written as its tokens: they are taken off its text whatever
ends them, and there is no line end in it. Main statements: `Value.lexes_write`,
`Value.isUnified_write`.
-/

namespace Stylesheet

open Lexing

variable {l : Layout} {f : Format} {cs rest : List Char} {t : Token} {ts : List Token}

-- A text that is taken off as something else than white space first does not begin with any.
theorem Lexing.Lexes.startsGap (h : Lexes cs (t :: ts) rest) (ht : t ≠ .whitespace) :
    startsGap cs = false := by
  cases h
  case blank => contradiction
  case lexeme hg _ _ => exact hg

-- A text that begins with a star begins with the token of one.
theorem Lexing.Lexes.head_of_star (h : Lexes ('*' :: cs) (t :: ts) rest) : t = .delimiter '*' := by
  obtain ⟨_, hstar⟩ := @lexeme_punctuation '*' cs (by decide)
  generalize hc : '*' :: cs = ds at h
  cases h
  case blank blanks ds hne hb _ _ =>
    obtain ⟨c, blanks, he⟩ := List.exists_cons_of_ne_nil hne
    subst he
    cases hc
    exact absurd (hb '*' List.mem_cons_self) (by decide)
  case lexeme hl _ =>
    cases hc
    rw [hstar] at hl
    cases hl
    rfl

namespace Value

variable {v : Value} {level : Level}

theorem lexes_word {word : String} (h : isCleanWord word) (hr : Stops rest) :
    Lexes (((keyword word).write l).toList ++ rest) [wordToken word] rest := by
  rw [write]
  cases CleanWord.of_isCleanWord h
  case hash cs hw hn hc _ hv ht =>
    have := lexes_hash (s := String.ofList cs) (by simpa using hn) (by simpa using hc) hr
    rw [String.toList_ofList] at this
    rwa [if_pos hv, hw, ht]
  case symbol c hw hs hv ht =>
    simp only [standsAlone, Bool.and_eq_true] at hs
    have hc : c ≠ '/' := by
      rintro rfl
      exact absurd hs.2 (by decide)
    rw [if_pos hv, hw, ht]
    exact lexes_symbol hs.1 hc hr
  case name hn hv ht =>
    rw [if_neg (Bool.eq_false_iff.mp hv), ht, Text.Escaped.identifier, String.toList_ofList]
    exact lexes_identifier hn hr

theorem isNameChar_of_isHexDigit {c : Char} (h : Text.isHexDigit c) : isNameChar true c := by
  by_cases ha : Text.isAscii c
  · have := Text.of_isAscii (p := fun c => !Text.isHexDigit c || isNameChar true c) (by decide) ha
    simpa [h] using this
  · simp [isNameChar, isNameStart, ha]

theorem lexes_leaf (hl : v.isLeaf) (hs : hasShape level v) (hc : v.isClean) (hr : Stops rest) :
    Lexes ((v.write l).toList ++ rest) [leafToken l.format.shortHex v] rest := by
  have hnul {s : String} (h : isCleanText s) : ∀ c ∈ s.toList, c.toNat ≠ 0 := by
    simpa [isCleanText] using h
  cases v
  case size s =>
    obtain ⟨x, unit⟩ := s
    cases x
    case finite x => exact (lexes_size hc hr).2
    all_goals cases hc
  case keyword word => exact lexes_word hc hr
  case hex digits =>
    have hs : isHexColor digits.toList ∧ Text.lower digits = digits := by
      cases level <;> simpa [hasShape, isReadLeaf] using hs
    obtain ⟨hx, _⟩ := isHexColor_writtenDigits l.format.shortHex hs.1 hs.2
    simp only [isHexColor, Bool.and_eq_true, List.all_eq_true] at hx
    have hn : (writtenDigits l.format.shortHex digits).toList ≠ [] := by
      intro hn
      rw [hn] at hx
      exact absurd hx.1 (by decide)
    rw [write, writeHex_eq, String.toList_append]
    exact lexes_hash hn (fun c hc => isNameChar_of_isHexDigit (hx.2 c hc)) hr
  case string content =>
    rw [write, Text.Escaped.quoted, String.toList_ofList]
    exact lexes_string (hnul hc)
  case url target =>
    have := @lexes_url rest target (hnul hc)
    simpa [write, Text.Escaped.quoted, leafToken] using this
  case function | pair | list => cases hl

theorem leafToken_ne_whitespace {short : Bool} (hl : v.isLeaf) (hc : v.isClean) :
    leafToken short v ≠ .whitespace := by
  cases v
  case size s =>
    obtain ⟨x, unit⟩ := s
    cases x
    case finite => simp [leafToken]
    all_goals cases hc
  case keyword word =>
    rw [leafToken]
    cases CleanWord.of_isCleanWord hc
    case symbol c _ _ _ ht =>
      rw [ht]
      unfold single
      split <;> simp
    all_goals simp_all
  case hex | string | url => simp [leafToken]
  case function | pair | list => cases hl

theorem leafToken_of_star {short : Bool} (h : leafToken short v = .delimiter '*') :
    v = keyword "*" := by
  cases v
  case keyword word =>
    simp only [leafToken, wordToken] at h
    split at h
    case h_2 => cases h
    case h_1 c cs hw =>
      split at h
      case isTrue => cases h
      case isFalse =>
        split at h
        case isFalse => cases h
        case isTrue hv =>
          have hc : c = '*' := by
            unfold single at h
            split at h <;> cases h
            rfl
          simp only [Bool.and_eq_true, List.isEmpty_iff] at hv
          rw [← String.ofList_toList (s := word), hw, hc, hv.1]
  case size s =>
    obtain ⟨x, unit⟩ := s
    cases x <;> cases h
  all_goals cases h

mutual

theorem tokens_head (f : Format) {level : Level} (v : Value) (hs : hasShape level v)
    (hc : v.isClean) : ∃ t ts, v.tokens f = t :: ts ∧ t ≠ .whitespace := by
  match v with
  | size s | keyword s | hex s | string s | url s =>
    exact ⟨_, [], isLeaf_tokens rfl, leafToken_ne_whitespace rfl hc⟩
  | function _ name _ =>
    refine ⟨_, _, by rw [tokens], ?_⟩
    unfold opener
    split <;> simp
  | pair first second =>
    simp only [isClean, Bool.and_eq_true] at hc
    obtain ⟨t, ts, ht, hn⟩ := tokens_head f first (hasShape_pair hs).2.1 hc.1.1
    exact ⟨t, _, by rw [tokens, ht, List.cons_append], hn⟩
  | list separator items =>
    obtain ⟨hn, _, hitems⟩ := hasShape_list hs
    exact itemTokens_head f separator items hn hitems hc

theorem itemTokens_head (f : Format) (separator : Separator) {level : Level} (items : List Value)
    (hn : items ≠ []) (hs : itemsHaveShape level items) (hc : itemsAreClean items) :
    ∃ t ts, itemTokens f separator items = t :: ts ∧ t ≠ .whitespace := by
  match items with
  | [] => contradiction
  | v :: vs =>
    rw [itemsHaveShape, Bool.and_eq_true] at hs
    rw [itemsAreClean, Bool.and_eq_true] at hc
    obtain ⟨t, ts, ht, hn⟩ := tokens_head f v hs.1 hc.1
    exact ⟨t, _, by rw [itemTokens, ht, List.cons_append], hn⟩

end

-- Only the keyword begins with a star.
theorem keyword_of_star (hs : hasShape .component v) (h : Lexes ('*' :: cs) (v.tokens f) rest) :
    v.keyword? = some "*" := by
  by_cases hl : v.isLeaf
  case pos =>
    rw [isLeaf_tokens hl] at h
    rw [leafToken_of_star h.head_of_star]
    rfl
  case neg =>
    cases v
    case function name _ =>
      rw [tokens] at h
      have := h.head_of_star
      unfold opener at this
      split at this <;> cases this
    case pair | list => simp [hasShape] at hs
    all_goals exact absurd rfl hl

-- What is between two items of a list is taken off as the tokens between them.
theorem lexes_between (hf : l.format.IsReadable) (separator : Separator)
    (hg : startsGap cs = false) (ht : Lexes cs ts rest) :
    Stops (l.spread (spacing l.format separator).toList ++ cs) ∧
      Lexes (l.spread (spacing l.format separator).toList ++ cs)
        (between l.format separator ++ ts) rest := by
  cases separator
  case space =>
    have hb := Layout.lexes_spread hf hf.blank hg ht
    have hn : l.format.blank.toList.isEmpty = false := by simp [hf.blank_ne_nil]
    rw [blankTokens, hn] at hb
    exact ⟨Layout.stops_spread hf hf.blank (.inl hf.blank_ne_nil), hb⟩
  case comma =>
    have hcomma := hf.comma
    unfold isListSpacing at hcomma
    split at hcomma
    case h_1 blanks he =>
      have hb := Layout.lexes_spread hf hcomma hg ht
      rw [spacing, between, he, Layout.spread_cons (by decide)]
      refine ⟨?_, ?_⟩
      · rintro c hc
        cases hc
        decide
      · exact (lexes_punctuation (by decide)).append hb
    case h_2 => cases hcomma

theorem lexes_opener {name : String} (h : isCleanName name) :
    Lexes (Text.Escaped.identifierChars name.toList ++ '(' :: rest) [opener name] rest := by
  by_cases hn : name.isEmpty
  case pos =>
    rw [opener, if_pos hn, String.isEmpty_iff.mp hn]
    exact lexes_punctuation (by decide)
  case neg =>
    simp only [isCleanName, hn, Bool.false_or, Bool.and_eq_true, Bool.not_eq_true'] at h
    rw [opener, if_neg hn]
    exact lexes_function h.1 h.2

theorem stops_cons {c : Char} {cs : List Char} (h : c ∈ stops) : Stops (c :: cs) := by
  rintro d hd
  cases hd
  exact h

mutual

-- The text of a clean value is taken off as its tokens.
theorem lexes_write (hf : l.format.IsReadable) {level : Level} {rest : List Char} (v : Value)
    (hs : hasShape level v) (hc : v.isClean) (hr : Stops rest) :
    Lexes ((v.write l).toList ++ rest) (v.tokens l.format) rest := by
  match v with
  | size s | keyword s | hex s | string s | url s =>
    rw [isLeaf_tokens rfl]
    exact lexes_leaf rfl hs hc hr
  | function kind name arguments =>
    simp only [isClean, Bool.and_eq_true] at hc
    simp only [hasShape, Bool.and_eq_true] at hs
    have hclose : Lexes (')' :: rest) [.closeParen] rest := lexes_punctuation (by decide)
    have ha : Lexes ((writeArguments l arguments).toList ++ ')' :: rest)
        (argumentTokens l.format arguments) (')' :: rest) := by
      match arguments with
      | none => exact .done
      | some v => exact lexes_write hf v hs.2 hc.2 (stops_cons (by decide))
    have := (lexes_opener hc.1).append (ha.append hclose)
    simpa [write, tokens, Text.Escaped.identifier] using this
  | pair first second =>
    simp only [isClean, Bool.and_eq_true, bne_iff_ne] at hc
    obtain ⟨_, hfirst, hsecond⟩ := hasShape_pair hs
    have hw := lexes_write hf second hsecond hc.1.2 hr
    have hstar : ∀ c ∈ ((second.write l).toList ++ rest).head?, c ≠ '*' := by
      rintro c hhead rfl
      obtain ⟨cs, he⟩ := List.head?_eq_some_iff.mp hhead
      exact hc.2 (keyword_of_star hsecond (he ▸ hw))
    have hslash := (lexes_slash hstar).append hw
    have := (lexes_write hf first hfirst hc.1.1 (stops_cons (by decide))).append hslash
    simpa [write, tokens, Layout.toList_space, hf.slash, Layout.spread] using this
  | list separator items =>
    obtain ⟨hn, _, hitems⟩ := hasShape_list hs
    rw [write, tokens]
    exact lexes_writeItems hf separator items hn hitems hc hr

theorem lexes_writeItems (hf : l.format.IsReadable) (separator : Separator) {level : Level}
    {rest : List Char} (items : List Value) (hn : items ≠ []) (hs : itemsHaveShape level items)
    (hc : itemsAreClean items) (hr : Stops rest) :
    Lexes ((l.join (spacing l.format separator) (writeItems l items)).toList ++ rest)
      (itemTokens l.format separator items) rest := by
  match items with
  | [] => contradiction
  | [v] =>
    simp only [itemsHaveShape, itemsAreClean, Bool.and_true] at hs hc
    simpa [writeItems, itemTokens, Layout.join] using lexes_write hf v hs hc hr
  | v :: w :: items =>
    rw [itemsHaveShape, Bool.and_eq_true] at hs
    rw [itemsAreClean, Bool.and_eq_true] at hc
    have hitems := lexes_writeItems hf separator (w :: items) (by simp) hs.2 hc.2 hr
    obtain ⟨t, ts, ht, hblank⟩ := itemTokens_head l.format separator (w :: items) (by simp) hs.2 hc.2
    obtain ⟨hstops, hb⟩ := lexes_between hf separator ((ht ▸ hitems).startsGap hblank) hitems
    have := (lexes_write hf v hs.1 hc.1 hstops).append hb
    rw [writeItems, Layout.toList_join_cons (by simp [writeItems]), itemTokens, if_neg (by simp)]
    simpa using this

end

/-! ### Line ends -/

theorem isUnified_of_isNameChar (h : ∀ c ∈ cs, isNameChar true c) : Text.isUnified cs := by
  simp only [Text.isUnified, List.all_eq_true, Bool.and_eq_true, bne_iff_ne]
  intro c hc
  refine ⟨?_, ?_⟩
  all_goals
    rintro rfl
    exact absurd (h _ hc) (by decide)

theorem isUnified_of_isDigit (h : ∀ c ∈ cs, c.isDigit) : Text.isUnified cs :=
  isUnified_of_isNameChar fun c hc => by simp [isNameChar, h c hc]

theorem isUnified_size {x : Double} {unit : Option String} (h : isUnit unit) :
    Text.isUnified (Size.mk (.finite x) unit).css.toList := by
  obtain ⟨negative, whole, fraction, _, hw, _⟩ := Number.read_css x
  rw [Size.css, String.toList_append, Text.isUnified_append]
  refine ⟨?_, ?_⟩
  · obtain ⟨he, _, hwhole, hfraction⟩ := hw
    rw [he, Text.isUnified_append, Text.isUnified_append]
    refine ⟨by cases negative <;> decide, isUnified_of_isDigit hwhole, ?_⟩
    unfold Decimal.pointed
    split
    · decide
    · exact Text.isUnified_cons.mpr ⟨by decide, isUnified_of_isDigit hfraction⟩
  · cases unit
    case none => rfl
    case some unit =>
      simp only [isUnit, Bool.or_eq_true, beq_iff_eq, Bool.and_eq_true, List.all_eq_true] at h
      rcases h with rfl | h
      · exact (by decide : Text.isUnified "%".toList)
      · exact isUnified_of_isNameChar h.1.1.1

theorem isUnified_word {word : String} (h : isCleanWord word) :
    Text.isUnified ((keyword word).write l).toList := by
  rw [write]
  split
  case isFalse =>
    rw [Text.Escaped.identifier, String.toList_ofList]
    exact Text.isUnified_identifierChars _
  case isTrue hv =>
    cases CleanWord.of_isCleanWord h
    case hash cs hw _ hc _ _ _ =>
      rw [hw, Text.isUnified_cons]
      exact ⟨by decide, isUnified_of_isNameChar hc⟩
    case symbol c hw hs _ _ =>
      simp only [standsAlone, isSymbol, Bool.and_eq_true, Bool.not_eq_true'] at hs
      have hb := hs.1.2
      rw [hw, Text.isUnified_cons]
      refine ⟨⟨?_, ?_⟩, rfl⟩
      all_goals
        rintro rfl
        exact absurd hb (by decide)
    case name hn _ => exact absurd hv (Bool.eq_false_iff.mp hn)

theorem isUnified_spread (hf : l.format.IsReadable) (h : isSpacing cs) :
    Text.isUnified (l.spread cs) := by
  have hs := Layout.isSpacing_spread hf h
  simp only [isSpacing, List.all_eq_true, List.contains_eq_mem, decide_eq_true_eq] at hs
  simp only [Text.isUnified, List.all_eq_true]
  exact fun c hc => (by decide : ∀ c ∈ [' ', '\t', '\n'], (c != '\r' && c != '\x0c') = true) c
    (hs c hc)

theorem isUnified_between (hf : l.format.IsReadable) (separator : Separator) :
    Text.isUnified (l.spread (spacing l.format separator).toList) := by
  cases separator
  case space => exact isUnified_spread hf hf.blank
  case comma =>
    have hcomma := hf.comma
    unfold isListSpacing at hcomma
    split at hcomma
    case h_1 blanks he =>
      rw [spacing, he, Layout.spread_cons (by decide), Text.isUnified_cons]
      exact ⟨by decide, isUnified_spread hf hcomma⟩
    case h_2 => cases hcomma

mutual

theorem isUnified_write (hf : l.format.IsReadable) {level : Level} (v : Value)
    (hs : hasShape level v) (hc : v.isClean) : Text.isUnified (v.write l).toList := by
  match v with
  | size ⟨.finite x, unit⟩ => exact isUnified_size hc
  | keyword word => exact isUnified_word hc
  | hex digits =>
    have hs : isHexColor digits.toList ∧ Text.lower digits = digits := by
      cases level <;> simpa [hasShape, isReadLeaf] using hs
    obtain ⟨hx, _⟩ := isHexColor_writtenDigits l.format.shortHex hs.1 hs.2
    simp only [isHexColor, Bool.and_eq_true, List.all_eq_true] at hx
    rw [write, writeHex_eq, String.toList_append, Text.isUnified_append]
    exact ⟨by decide, isUnified_of_isNameChar fun c hc => isNameChar_of_isHexDigit (hx.2 c hc)⟩
  | string content =>
    rw [write, Text.Escaped.quoted, String.toList_ofList]
    exact Text.isUnified_quotedChars _
  | url target =>
    simp only [write, Text.Escaped.quoted, String.toList_append, String.toList_ofList,
      Text.isUnified_append]
    exact ⟨⟨by decide, Text.isUnified_quotedChars _⟩, by decide⟩
  | function kind name arguments =>
    simp only [isClean, Bool.and_eq_true] at hc
    simp only [hasShape, Bool.and_eq_true] at hs
    simp only [write, Text.Escaped.identifier, String.toList_append, String.toList_ofList,
      Text.isUnified_append]
    refine ⟨⟨⟨Text.isUnified_identifierChars _, by decide⟩, ?_⟩, by decide⟩
    match arguments with
    | none => rfl
    | some v => exact isUnified_write hf v hs.2 hc.2
  | pair first second =>
    simp only [isClean, Bool.and_eq_true] at hc
    obtain ⟨_, hfirst, hsecond⟩ := hasShape_pair hs
    simp only [write, String.toList_append, Layout.toList_space, hf.slash, Text.isUnified_append]
    exact ⟨⟨isUnified_write hf first hfirst hc.1.1, rfl⟩,
      isUnified_write hf second hsecond hc.1.2⟩
  | list separator items =>
    obtain ⟨_, _, hitems⟩ := hasShape_list hs
    rw [write]
    exact isUnified_writeItems hf separator items hitems hc

theorem isUnified_writeItems (hf : l.format.IsReadable) (separator : Separator) {level : Level}
    (items : List Value) (hs : itemsHaveShape level items) (hc : itemsAreClean items) :
    Text.isUnified (l.join (spacing l.format separator) (writeItems l items)).toList := by
  match items with
  | [] => rfl
  | [v] =>
    simp only [itemsHaveShape, itemsAreClean, Bool.and_true] at hs hc
    simpa [writeItems, Layout.join] using isUnified_write hf v hs hc
  | v :: w :: items =>
    rw [itemsHaveShape, Bool.and_eq_true] at hs
    rw [itemsAreClean, Bool.and_eq_true] at hc
    rw [writeItems, Layout.toList_join_cons (by simp [writeItems]), Text.isUnified_append,
      Text.isUnified_append]
    exact ⟨isUnified_write hf v hs.1 hc.1, isUnified_between hf separator,
      isUnified_writeItems hf separator (w :: items) hs.2 hc.2⟩

end

end Value
end Stylesheet
