import Stylesheet.Number.Basic
import Stylesheet.Token.Scan
/-!
The lexer. `Cursor.scan` takes the next token off a text, or reports a fault; a fault takes the
malformed text along, so that scanning goes on behind it. Comments are part of no token. What a
token is depends on characters alone; positions are counted from the text that was taken. Main
statements: a lexeme is what was taken off the text, and never nothing (`lexeme_append`,
`lexeme_taken_ne_nil`), so that a scan leaves a shorter rest (`Cursor.scan_length_lt`).
-/

namespace Stylesheet

namespace Lexing

/-- A fault, and the text in front of the place in the lexeme where it is reported. -/
structure Trouble where
  fault : LexicalFault
  before : List Char

/-- A token or what is wrong with it, its text, and the text behind it. -/
structure Lexeme where
  result : Except Trouble Token
  taken : List Char
  rest : List Char

namespace Lexeme

/-- A fault, reported at the beginning of its text. -/
def faulty (fault : LexicalFault) (taken rest : List Char) : Lexeme :=
  ⟨.error ⟨fault, []⟩, taken, rest⟩

def decoded (token : String → Token) (written taken rest : List Char) : Lexeme :=
  match unescape .nothing written with
  | .ok cs => ⟨.ok (token (String.ofList cs)), taken, rest⟩
  | .error fault => faulty fault taken rest

end Lexeme

/-- The unit of a number: a percent sign or an identifier, its letters small. -/
def unit (multibyte : Bool) : List Char → Except LexicalFault (Option String) × Span
  | '%' :: rest => (.ok (some "%"), ['%'], rest)
  | cs =>
    if startsIdentifier multibyte cs then
      let span := nameSpan multibyte .nothing cs
      ((unescape .nothing span.1).map fun word => some (Text.lower (String.ofList word)), span)
    else (.ok none, [], cs)

/-- A number. Its unit is taken along also if the number is out of range. -/
def number (multibyte : Bool) (cs : List Char) : Lexeme :=
  let (written, rest) := numeral cs
  match Decimal.ofChars? written with
  | none => .faulty (.invalidNumber (String.ofList written)) written rest
  | some decimal =>
    let (unit, behind, rest) := unit multibyte rest
    match unit, decimal.toDouble? with
    | .error fault, _ => .faulty fault (written ++ behind) rest
    | .ok _, none => .faulty (.numberOutOfRange (String.ofList written)) (written ++ behind) rest
    | .ok unit, some value =>
      ⟨.ok (.number value unit (String.ofList written)), written ++ behind, rest⟩

/-- A name as a token, behind the character that marks it. -/
def named (multibyte : Bool) (token : String → Token) (mark : Char) (cs : List Char) : Lexeme :=
  let (written, rest) := nameSpan multibyte .nothing cs
  .decoded token written (mark :: written) rest

/-- A string: its content as written if it is closed, and the whole text. -/
def quoted (quote : Char) (cs : List Char) : Option (List Char) × Span :=
  let (content, rest) := stringSpan quote .nothing cs
  match rest with
  | [] => (none, quote :: content, [])
  | c :: rest =>
    if c = quote then (some content, quote :: (content ++ [c]), rest)
    else (none, quote :: content, c :: rest)

def string (quote : Char) (cs : List Char) : Lexeme :=
  match quoted quote cs with
  | (some content, taken, rest) => .decoded .string content taken rest
  | (none, taken, rest) => .faulty .unterminatedString taken rest

/-- The rest of a malformed `url(` goes through its parenthesis. -/
def malformedUrl (fault : LexicalFault) (front cs : List Char) : Lexeme :=
  let (taken, rest) := parenSpan cs
  .faulty fault (front ++ taken) rest

/-- A `url(` with a string, behind `front`. A string that is not closed is reported as such. -/
def quotedUrl (front : List Char) (quote : Char) (cs : List Char) : Lexeme :=
  match quoted quote cs with
  | (none, taken, rest) => ⟨.error ⟨.unterminatedString, front⟩, front ++ taken, rest⟩
  | (some content, taken, rest) =>
    let (blanks, rest) := blankSpan rest
    let front := front ++ taken ++ blanks
    match rest with
    | [] => .faulty .unterminatedUrl front []
    | c :: rest =>
      if c = ')' then .decoded .url content (front ++ [c]) rest
      else malformedUrl .malformedUrl front (c :: rest)

/-- A `url(` without a string, behind `front`. White space may only stand in front of its end. -/
def bareUrl (front cs : List Char) : Lexeme :=
  let (target, rest) := targetSpan .nothing cs
  let (blanks, behind) := blankSpan rest
  match rest, behind with
  | [], _ => .faulty .unterminatedUrl (front ++ target) []
  | _, ')' :: behind => .decoded .url target (front ++ target ++ blanks ++ [')']) behind
  | '\\' :: _, _ => malformedUrl .invalidEscapeInUrl (front ++ target) rest
  | _, _ => malformedUrl .malformedUrl (front ++ target) rest

/-- The text behind `front`, which ends in `url(`. -/
def url (front cs : List Char) : Lexeme :=
  let (blanks, rest) := blankSpan cs
  match rest with
  | [] => bareUrl (front ++ blanks) []
  | c :: rest =>
    if Selector.isQuote c then quotedUrl (front ++ blanks) c rest
    else bareUrl (front ++ blanks) (c :: rest)

/-- An identifier, or a function or `url(` if a parenthesis follows it. -/
def identifierLike (multibyte : Bool) (cs : List Char) : Lexeme :=
  let (written, rest) := nameSpan multibyte .nothing cs
  match rest with
  | '(' :: rest =>
    match unescape .nothing written with
    | .error fault => .faulty fault (written ++ ['(']) rest
    | .ok word =>
      if Text.sameWord (String.ofList word) "url" then url (written ++ ['(']) rest
      else ⟨.ok (.function (String.ofList word)), written ++ ['('], rest⟩
  | rest => .decoded .identifier written written rest

def startsName (multibyte : Bool) : List Char → Bool
  | c :: rest => isNameChar multibyte c || startsEscape (c :: rest)
  | [] => false

/-- The token that a character is by itself. -/
def single : Char → Token
  | ':' => .colon
  | ';' => .semicolon
  | ',' => .comma
  | '/' => .slash
  | '{' => .openBrace
  | '}' => .closeBrace
  | '(' => .openParen
  | ')' => .closeParen
  | c => .delimiter c

/-- The lexeme that begins with `c`, which is no white space and starts no comment. -/
def lexeme (multibyte : Bool) (c : Char) (rest : List Char) : Lexeme :=
  if Selector.isQuote c then string c rest
  else if c = '#' && startsName multibyte rest then named multibyte .hash c rest
  else if c = '@' && startsIdentifier multibyte rest then named multibyte .atKeyword c rest
  else if startsNumber (c :: rest) then number multibyte (c :: rest)
  else if startsIdentifier multibyte (c :: rest) then identifierLike multibyte (c :: rest)
  else if c = '\\' then .faulty .invalidEscape [c] rest
  else if Text.isAscii c then ⟨.ok (single c), [c], rest⟩
  else .faulty (.notAscii c) [c] rest

theorem Lexeme.decoded_taken (token : String → Token) (written taken rest : List Char) :
    (decoded token written taken rest).taken = taken := by
  fun_cases decoded <;> rfl

theorem Lexeme.decoded_rest (token : String → Token) (written taken rest : List Char) :
    (decoded token written taken rest).rest = rest := by
  fun_cases decoded <;> rfl

theorem unit_append (multibyte : Bool) (cs : List Char) :
    (unit multibyte cs).2.1 ++ (unit multibyte cs).2.2 = cs := by
  fun_cases unit multibyte cs with
  | case1 | case3 => rfl
  | case2 cs => exact nameSpan_append ..

theorem number_append (multibyte : Bool) (cs : List Char) :
    (number multibyte cs).taken ++ (number multibyte cs).rest = cs := by
  have hn := numeral_append cs
  have hu := unit_append multibyte (numeral cs).2
  unfold number
  dsimp only
  split
  · exact hn
  · split <;> simp only [Lexeme.faulty, List.append_assoc, hu, hn]

theorem named_append (multibyte : Bool) (token : String → Token) (mark : Char) (cs : List Char) :
    (named multibyte token mark cs).taken ++ (named multibyte token mark cs).rest = mark :: cs := by
  simp only [named, Lexeme.decoded_taken, Lexeme.decoded_rest, List.cons_append, nameSpan_append]

theorem quoted_append (quote : Char) (cs : List Char) :
    (quoted quote cs).2.1 ++ (quoted quote cs).2.2 = quote :: cs := by
  have hs := stringSpan_append quote .nothing cs
  unfold quoted
  dsimp only
  split
  · next h => rw [h] at hs; simpa using hs
  · next h => rw [h] at hs; split <;> simpa using hs

theorem string_append (quote : Char) (cs : List Char) :
    (string quote cs).taken ++ (string quote cs).rest = quote :: cs := by
  have hq := quoted_append quote cs
  unfold string
  split <;> next h =>
    rw [h] at hq
    simpa only [Lexeme.faulty, Lexeme.decoded_taken, Lexeme.decoded_rest] using hq

theorem malformedUrl_append (fault : LexicalFault) (front cs : List Char) :
    (malformedUrl fault front cs).taken ++ (malformedUrl fault front cs).rest = front ++ cs := by
  simp only [malformedUrl, Lexeme.faulty, List.append_assoc, parenSpan_append]

theorem quotedUrl_append (front : List Char) (quote : Char) (cs : List Char) :
    (quotedUrl front quote cs).taken ++ (quotedUrl front quote cs).rest = front ++ quote :: cs := by
  have hq := quoted_append quote cs
  unfold quotedUrl
  split
  · next h => rw [h] at hq; simp only [List.append_assoc]; rw [← hq]
  · next content taken rest h =>
    rw [h] at hq
    have hb := blankSpan_append rest
    dsimp only
    split
    · next h => simp only [h] at hb; simp_all [Lexeme.faulty]
    · next c rest' h =>
      simp only [h] at hb
      split
      · simp_all [Lexeme.decoded_taken, Lexeme.decoded_rest]
      · rw [malformedUrl_append]; simp_all

theorem bareUrl_append (front cs : List Char) :
    (bareUrl front cs).taken ++ (bareUrl front cs).rest = front ++ cs := by
  have ht := targetSpan_append .nothing cs
  have hb := blankSpan_append (targetSpan .nothing cs).2
  unfold bareUrl
  dsimp only
  split
  · next h => simp_all [Lexeme.faulty]
  · next h => simp_all [Lexeme.decoded_taken, Lexeme.decoded_rest]
  · rw [malformedUrl_append, List.append_assoc, ht]
  · rw [malformedUrl_append, List.append_assoc, ht]

theorem url_append (front cs : List Char) :
    (url front cs).taken ++ (url front cs).rest = front ++ cs := by
  have hb := blankSpan_append cs
  unfold url
  dsimp only
  split
  · next h => rw [bareUrl_append]; simp_all
  · next h =>
    split
    · rw [quotedUrl_append]; simp_all
    · rw [bareUrl_append]; simp_all

theorem identifierLike_append (multibyte : Bool) (cs : List Char) :
    (identifierLike multibyte cs).taken ++ (identifierLike multibyte cs).rest = cs := by
  have hn := nameSpan_append multibyte .nothing cs
  unfold identifierLike
  dsimp only
  split
  · next h =>
    rw [h] at hn
    split
    · simpa [Lexeme.faulty] using hn
    · split
      · rw [url_append]; simpa using hn
      · simpa using hn
  · rwa [Lexeme.decoded_taken, Lexeme.decoded_rest]

/-- A lexeme is what was taken off the text. -/
theorem lexeme_append (multibyte : Bool) (c : Char) (rest : List Char) :
    (lexeme multibyte c rest).taken ++ (lexeme multibyte c rest).rest = c :: rest := by
  fun_cases lexeme with
  | case1 => exact string_append ..
  | case2 | case3 => exact named_append ..
  | case4 => exact number_append ..
  | case5 => exact identifierLike_append ..
  | case6 | case7 | case8 => rfl

theorem malformedUrl_front (fault : LexicalFault) (front cs : List Char) :
    front <+: (malformedUrl fault front cs).taken :=
  List.prefix_append ..

theorem quotedUrl_front (front : List Char) (quote : Char) (cs : List Char) :
    front <+: (quotedUrl front quote cs).taken := by
  unfold quotedUrl
  split
  · exact List.prefix_append ..
  · have hf (ds es : List Char) : front <+: front ++ ds ++ es :=
      (List.prefix_append ..).trans (List.prefix_append ..)
    dsimp only
    split
    · exact hf ..
    · split
      · rw [Lexeme.decoded_taken]
        exact (hf ..).trans (List.prefix_append ..)
      · exact (hf ..).trans (malformedUrl_front ..)

theorem bareUrl_front (front cs : List Char) : front <+: (bareUrl front cs).taken := by
  have hf (ds : List Char) : front <+: front ++ ds := List.prefix_append ..
  unfold bareUrl
  dsimp only
  split
  · exact hf ..
  · rw [Lexeme.decoded_taken]
    exact (hf ..).trans ((List.prefix_append ..).trans (List.prefix_append ..))
  all_goals exact (hf ..).trans (malformedUrl_front ..)

theorem url_front (front cs : List Char) : front <+: (url front cs).taken := by
  unfold url
  dsimp only
  split
  · exact (List.prefix_append ..).trans (bareUrl_front ..)
  · split
    · exact (List.prefix_append ..).trans (quotedUrl_front ..)
    · exact (List.prefix_append ..).trans (bareUrl_front ..)

theorem nameSpan_ne_nil {multibyte : Bool} {c : Char} {rest : List Char}
    (h : startsIdentifier multibyte (c :: rest)) :
    (nameSpan multibyte .nothing (c :: rest)).1 ≠ [] := by
  have hc : isNameChar multibyte c ∨ startsEscape (c :: rest) := by
    unfold startsIdentifier at h
    split at h
    · simp_all [isNameChar]
    · simp_all [isNameChar]
    · simp_all only [Bool.or_eq_true, isNameChar]
      cases h <;> simp_all
    · simp_all
  simp only [nameSpan, Pending.take?]
  split
  · exact List.cons_ne_nil _ _
  · next hn =>
    rw [if_pos (hc.resolve_left hn)]
    exact List.cons_ne_nil _ _

theorem numeral_ne_nil {c : Char} {rest : List Char} (h : startsNumber (c :: rest)) :
    (numeral (c :: rest)).1 ≠ [] := by
  by_cases hs : c = '+' || c = '-'
  · simp [numeral, signSpan, hs]
  · have hsign : signSpan (c :: rest) = ([], c :: rest) := by rw [signSpan, if_neg hs]
    rw [startsNumber, if_neg (by simpa using hs)] at h
    simp only [numeral, hsign, List.nil_append]
    unfold startsUnsigned at h
    split at h
    · next hc =>
      cases hc
      have hd : digitSpan ('.' :: rest) = ([], '.' :: rest) := rfl
      simp [hd, fractionSpan, h, extend]
    · simp only [startsDigit] at h
      simp [digitSpan, h]

theorem string_taken_ne_nil (quote : Char) (cs : List Char) : (string quote cs).taken ≠ [] := by
  have hq : (quoted quote cs).2.1 ≠ [] := by
    fun_cases quoted quote cs <;> exact List.cons_ne_nil _ _
  unfold string
  split <;> next h =>
    rw [h] at hq
    first
      | exact hq
      | rwa [Lexeme.decoded_taken]

theorem number_taken_ne_nil {multibyte : Bool} {c : Char} {rest : List Char}
    (h : startsNumber (c :: rest)) : (number multibyte (c :: rest)).taken ≠ [] := by
  have hn := numeral_ne_nil h
  unfold number
  dsimp only
  split
  · exact hn
  · split <;> exact List.append_ne_nil_of_left_ne_nil hn _

theorem identifierLike_taken_ne_nil {multibyte : Bool} {c : Char} {rest : List Char}
    (h : startsIdentifier multibyte (c :: rest)) :
    (identifierLike multibyte (c :: rest)).taken ≠ [] := by
  have hn := nameSpan_ne_nil h
  have hp := List.append_ne_nil_of_left_ne_nil hn ['(']
  unfold identifierLike
  dsimp only
  split
  · split
    · exact hp
    · split
      · exact (url_front _ _).ne_nil hp
      · exact hp
  · rwa [Lexeme.decoded_taken]

/-- Some text is taken by every lexeme. -/
theorem lexeme_taken_ne_nil (multibyte : Bool) (c : Char) (rest : List Char) :
    (lexeme multibyte c rest).taken ≠ [] := by
  fun_cases lexeme with
  | case1 => exact string_taken_ne_nil _ _
  | case2 | case3 => rw [named, Lexeme.decoded_taken]; exact List.cons_ne_nil _ _
  | case4 _ _ _ h => exact number_taken_ne_nil h
  | case5 _ _ _ _ h => exact identifierLike_taken_ne_nil h
  | case6 | case7 | case8 => exact List.cons_ne_nil _ _

theorem lexeme_rest_length (multibyte : Bool) (c : Char) (rest : List Char) :
    (lexeme multibyte c rest).rest.length ≤ rest.length := by
  have ha := congrArg List.length (lexeme_append multibyte c rest)
  have hn := List.length_pos_iff.2 (lexeme_taken_ne_nil multibyte c rest)
  rw [List.length_append, List.length_cons] at ha
  omega

/-- The white space and comments in front of a token. -/
structure Gap where
  /-- Whether there is any white space, or where a comment begins that does not end. -/
  result : Except Position Bool
  /-- The text behind, and its position. -/
  rest : List Char
  position : Position

/-- The gap in front of a text at a position. Inside a comment, `comment` is where it begins. -/
def gap (blank : Bool) : (comment : Option Position) → Position → List Char → Gap
  | none, p, '/' :: '*' :: rest => gap blank (some p) (p.after ['/', '*']) rest
  | none, p, c :: rest =>
    if Text.isBlank c then gap true none (p.next c) rest else ⟨.ok blank, c :: rest, p⟩
  | none, p, [] => ⟨.ok blank, [], p⟩
  | some _, p, '*' :: '/' :: rest => gap blank none (p.after ['*', '/']) rest
  | some start, p, c :: rest => gap blank (some start) (p.next c) rest
  | some start, p, [] => ⟨.error start, [], p⟩

theorem gap_suffix (blank : Bool) (comment : Option Position) (p : Position) (cs : List Char) :
    (gap blank comment p cs).rest <:+ cs := by
  fun_induction gap with
  | case1 _ _ _ ih | case5 _ _ _ _ ih =>
    exact ih.trans ((List.suffix_cons _ _).trans (List.suffix_cons _ _))
  | case2 _ _ _ _ _ _ ih | case6 _ _ _ _ _ _ ih => exact ih.trans (List.suffix_cons _ _)
  | case3 | case4 | case7 => exact List.suffix_refl _

theorem gap_rest_length {p : Position} {cs : List Char}
    (h : (gap false none p cs).result ≠ .ok false) :
    (gap false none p cs).rest.length < cs.length := by
  unfold gap at h ⊢
  split at h
  · exact Nat.lt_succ_of_le ((gap_suffix ..).trans (List.suffix_cons _ _)).length_le
  · split at h
    · next hc =>
      rw [if_pos hc]
      exact Nat.lt_succ_of_le (gap_suffix ..).length_le
    · exact absurd rfl h
  · exact absurd rfl h
  all_goals simp_all

end Lexing

/-- A text and the position of its beginning. -/
structure Cursor where
  rest : List Char
  position : Position

/-- What the lexer finds: a token or a diagnostic. -/
abbrev Lexed := Except Diagnostic Placed

namespace Cursor

/-- The beginning of a text, whose line ends are unified. -/
def ofText (text : String) : Cursor :=
  ⟨Text.unifyLineEnds text.toList, .start⟩

/-- What a lexeme at a position is. -/
def place (p : Position) (l : Lexing.Lexeme) : Lexed :=
  match l.result with
  | .ok token => .ok ⟨token, p⟩
  | .error trouble => .error ⟨.lexical trouble.fault, p.after trouble.before⟩

/-- Scans once; `none` is the end of the text, in front of which comments may still be taken. -/
def scan (multibyte : Bool) (c : Cursor) : Option Lexed × Cursor :=
  let gap := Lexing.gap false none c.position c.rest
  match gap.result, gap.rest with
  | .error start, rest =>
    (some (.error ⟨.lexical .unterminatedComment, start⟩), ⟨rest, gap.position⟩)
  | .ok true, rest => (some (.ok ⟨.whitespace, c.position⟩), ⟨rest, gap.position⟩)
  | .ok false, [] => (none, ⟨[], gap.position⟩)
  | .ok false, d :: rest =>
    let lexeme := Lexing.lexeme multibyte d rest
    (some (place gap.position lexeme), ⟨lexeme.rest, gap.position.after lexeme.taken⟩)

theorem scan_length_lt {multibyte : Bool} {c c' : Cursor} {result : Lexed}
    (h : c.scan multibyte = (some result, c')) : c'.rest.length < c.rest.length := by
  unfold scan at h
  dsimp only at h
  split at h
  · next hg => cases h; exact Lexing.gap_rest_length (by simp [hg])
  · next hg => cases h; exact Lexing.gap_rest_length (by simp [hg])
  · cases h
  · next d rest _ hr =>
    cases h
    have hle := (hr ▸ Lexing.gap_suffix false none c.position c.rest).length_le
    exact Nat.lt_of_le_of_lt (Lexing.lexeme_rest_length multibyte d rest) hle

theorem rest_of_scan_none {multibyte : Bool} {c c' : Cursor}
    (h : c.scan multibyte = (none, c')) : c'.rest = [] := by
  unfold scan at h
  dsimp only at h
  split at h
  case h_3 => exact (Prod.mk.inj h).2 ▸ rfl
  all_goals cases h

/-- All results of scanning a text, and the position of its end. -/
def lex (multibyte : Bool) (c : Cursor) : List Lexed × Position :=
  match _h : c.scan multibyte with
  | (none, c') => ([], c'.position)
  | (some result, c') =>
    let (results, finish) := c'.lex multibyte
    (result :: results, finish)
termination_by c.rest.length
decreasing_by exact scan_length_lt _h

theorem lex_of_scan_none {multibyte : Bool} {c c' : Cursor}
    (h : c.scan multibyte = (none, c')) : c.lex multibyte = ([], c'.position) := by
  rw [lex]
  split <;> simp_all only [Prod.mk.injEq, reduceCtorEq, false_and]

theorem lex_of_scan_some {multibyte : Bool} {c c' : Cursor} {result : Lexed}
    (h : c.scan multibyte = (some result, c')) :
    c.lex multibyte = (result :: (c'.lex multibyte).1, (c'.lex multibyte).2) := by
  rw [lex]
  split <;> simp_all only [Prod.mk.injEq, Option.some.injEq, reduceCtorEq, false_and]

end Cursor

/-- A lexer that may look one result ahead. The cursor stands behind what was looked at. -/
structure Lexer where
  multibyte : Bool
  cursor : Cursor
  ahead : Option (Option Lexed)

namespace Lexer

def ofText (multibyte : Bool) (text : String) : Lexer :=
  ⟨multibyte, .ofText text, none⟩

/-- The next result, which stays the next one. -/
def peek (l : Lexer) : Option Lexed × Lexer :=
  match l.ahead with
  | some result => (result, l)
  | none =>
    let (result, cursor) := l.cursor.scan l.multibyte
    (result, { l with cursor, ahead := some result })

def next (l : Lexer) : Option Lexed × Lexer :=
  match l.ahead with
  | some result => (result, { l with ahead := none })
  | none =>
    let (result, cursor) := l.cursor.scan l.multibyte
    (result, { l with cursor })

end Lexer
end Stylesheet
