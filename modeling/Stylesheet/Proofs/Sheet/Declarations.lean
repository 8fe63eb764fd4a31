import Stylesheet.Proofs.Value.Written
import Stylesheet.Sheet.Body
/-!
Declarations that are read back from their text. Behind the colon of one are the tokens of its
value, and `!important` if it is; a value must not end like that by itself. Main statements:
`Declaration.lexes_write`, `Declaration.ofTokens_of_tokens`.
-/

namespace Stylesheet

open Lexing

variable {f : Format} {l : Layout} {cs rest : List Char} {ts us : List Placed}

/-! ### Importance -/

-- What counts of a token where `!important` is looked for.
def Token.mark? : Token → Option Token
  | .whitespace => none
  | .hash _ => some (.hash "")
  | t => some t

-- Whether marks are those of a text that ends in `!important`.
def endsInImportant (marks : List Token) : Bool :=
  match marks.reverse with
  | .identifier word :: .delimiter '!' :: _ => Text.sameWord word "important"
  | _ => false

def marks (tokens : List Token) : List Token :=
  tokens.filterMap Token.mark?

theorem marks_append (ts us : List Token) : marks (ts ++ us) = marks ts ++ marks us :=
  List.filterMap_append ..

theorem marks_cons (t : Token) (ts : List Token) : marks (t :: ts) = marks [t] ++ marks ts :=
  marks_append [t] ts

theorem marks_eq_nil (h : ∀ t ∈ ts, t.token = .whitespace) : marks (ts.map Placed.token) = [] := by
  induction ts
  case nil => rfl
  case cons t ts ih =>
    obtain ⟨ht, hts⟩ := List.forall_mem_cons.mp h
    rw [List.map_cons, marks_cons, ht, ih hts]
    rfl

theorem marks_blankTokens (spacing : List Char) : marks (blankTokens spacing) = [] := by
  unfold blankTokens
  split <;> rfl

theorem marks_dropWhile (ts : List Placed) :
    marks ((ts.dropWhile (·.token.isWhitespace)).map Placed.token) =
      marks (ts.map Placed.token) := by
  induction ts
  case nil => rfl
  case cons t ts ih =>
    rw [List.dropWhile_cons]
    split
    case isTrue h =>
      have hm : t.token.mark? = none := by
        unfold Token.isWhitespace at h
        split at h
        · rename_i he
          rw [he]
          rfl
        · cases h
      simpa [marks, hm] using ih
    case isFalse => rfl

theorem splitImportant_of_not (h : endsInImportant (marks (ts.map Placed.token)) = false) :
    splitImportant ts = (false, ts) := by
  unfold splitImportant
  split
  case h_2 => rfl
  case h_1 last before he =>
    split
    case h_2 => rfl
    case h_1 word bang value hl hb =>
      split
      case isFalse => rfl
      case isTrue hi =>
        simp only [Bool.and_eq_true, decide_eq_true_eq] at hi
        -- Then the marks end in the two tokens that were found.
        have hbefore := marks_dropWhile before
        have hts := marks_dropWhile ts.reverse
        rw [hb, List.map_cons, hi.2] at hbefore
        rw [he, List.map_cons, hl, List.map_reverse] at hts
        have hm : marks ((ts.map Placed.token).reverse) =
            .identifier word :: .delimiter '!' :: marks (value.map Placed.token) := by
          rw [← hts]
          have : marks (.identifier word :: before.map Placed.token) =
              .identifier word :: marks (before.map Placed.token) := rfl
          rw [this, ← hbefore]
          rfl
        rw [marks, List.filterMap_reverse] at hm
        rw [endsInImportant, marks, hm] at h
        simp [hi.1] at h

theorem splitImportant_of_important (ts : List Placed) {bang word : Placed} {back : List Placed}
    (hb : bang.token = .delimiter '!') (hw : word.token = .identifier "important")
    (hback : ∀ t ∈ back, t.token = .whitespace) :
    splitImportant (ts ++ bang :: word :: back) = (true, ts) := by
  have hdrop : (back.reverse ++ word :: bang :: ts.reverse).dropWhile (·.token.isWhitespace) =
      word :: bang :: ts.reverse := by
    rw [List.dropWhile_append_of_pos, List.dropWhile_cons_of_neg]
    · simp [hw, Token.isWhitespace]
    · intro t ht
      simp [hback t (List.mem_reverse.mp ht), Token.isWhitespace]
  have hrev : (ts ++ bang :: word :: back).reverse =
      back.reverse ++ word :: bang :: ts.reverse := by
    simp
  have hsame : Text.sameWord "important" "important" = true := by decide
  rw [splitImportant, hrev, hdrop]
  simp [hw, hb, Token.isWhitespace, hsame]

namespace Value

theorem marks_between (f g : Format) (separator : Separator) :
    marks (between f separator) = marks (between g separator) := by
  cases separator
  case space => rfl
  case comma =>
    have h (blanks : List Char) : marks (.comma :: blankTokens blanks) = [.comma] :=
      congrArg (Token.comma :: ·) (marks_blankTokens blanks)
    rw [between, between, h, h]

mutual

-- Formats differ in white space and in the digits of colors only.
theorem marks_tokens (f g : Format) (v : Value) : marks (v.tokens f) = marks (v.tokens g) := by
  match v with
  | size ⟨.finite _, _⟩ | size ⟨.infinite _, _⟩ | size ⟨.nan, _⟩ => rfl
  | keyword _ | hex _ | string _ | url _ => rfl
  | function _ name arguments =>
    have ha := marks_argumentTokens f g arguments
    rw [tokens, tokens, marks_cons, marks_append, ha, ← marks_append, ← marks_cons]
  | pair first second =>
    rw [tokens, tokens, marks_append, marks_cons, marks_tokens f g first,
      marks_tokens f g second, ← marks_cons, ← marks_append]
  | list separator items => exact marks_itemTokens f g separator items

theorem marks_argumentTokens (f g : Format) (arguments : Option Value) :
    marks (argumentTokens f arguments) = marks (argumentTokens g arguments) := by
  match arguments with
  | some v => exact marks_tokens f g v
  | none => rfl

theorem marks_itemTokens (f g : Format) (separator : Separator) (items : List Value) :
    marks (itemTokens f separator items) = marks (itemTokens g separator items) := by
  match items with
  | [] => rfl
  | v :: vs =>
    rw [itemTokens, itemTokens, marks_append, marks_append, marks_tokens f g v]
    split
    case isTrue => rfl
    case isFalse =>
      rw [marks_append, marks_append, marks_between f g, marks_itemTokens f g separator vs]

end

end Value

namespace Declaration

variable {d : Declaration}

-- Whether a declaration is read back, given that it is one that could be read.
def isClean (d : Declaration) : Bool :=
  isName d.name.toList && d.value.isClean &&
    (d.important || !endsInImportant (marks (d.value.tokens {})))

-- What a declaration is like that was read.
structure IsShaped (d : Declaration) : Prop where
  name : propertyName d.name = d.name
  value : Value.hasShape .whole d.value

-- The tokens behind the colon of a declaration.
def valueTokens (f : Format) (d : Declaration) : List Token :=
  blankTokens f.afterName.toList ++ (d.value.tokens f ++
    if d.important then
      blankTokens f.beforeImportant.toList ++ [.delimiter '!', .identifier "important"]
    else [])

def tokens (f : Format) (d : Declaration) : List Token :=
  .identifier d.name :: .colon :: d.valueTokens f

-- The declaration with its colors as short as the format wants them.
def shorten (f : Format) (d : Declaration) : Declaration :=
  { d with value := d.value.shorten f }

theorem lexes_write (hf : l.format.IsReadable) (hs : d.IsShaped) (hc : d.isClean)
    (hr : Stops rest) : Lexes ((d.write l).toList ++ rest) (d.tokens l.format) rest := by
  simp only [isClean, Bool.and_eq_true] at hc
  obtain ⟨t, ts, ht, hblank⟩ := Value.tokens_head l.format d.value hs.value hc.1.2
  -- The importance, and what follows the value.
  have himportant : ∃ behind us, (if d.important then
        (l.space l.format.beforeImportant ++ "!important").toList else []) ++ rest = behind ∧
      (if d.important then
        blankTokens l.format.beforeImportant.toList ++ [.delimiter '!', .identifier "important"]
      else []) = us ∧ Stops behind ∧ Lexes behind us rest := by
    refine ⟨_, _, rfl, rfl, ?_⟩
    cases d.important
    case false => exact ⟨hr, .done⟩
    case true =>
      have hstop : Stops ('!' :: ("important".toList ++ rest)) := Value.stops_cons (by decide)
      have hword : Lexes ("important".toList ++ rest) [.identifier "important"] rest :=
        lexes_identifier (s := "important") (by decide) hr
      have hbang := (lexes_punctuation (c := '!') (by decide)).append hword
      have hg : startsGap ('!' :: ("important".toList ++ rest)) = false :=
        startsGap_cons (by decide) (by decide)
      simp only [if_true, String.toList_append, Layout.toList_space, List.append_assoc]
      exact ⟨Layout.stops_spread hf hf.beforeImportant (.inr hstop),
        Layout.lexes_spread hf hf.beforeImportant hg hbang⟩
  obtain ⟨behind, us, hbehind, hus, hstops, hlex⟩ := himportant
  have hvalue := (Value.lexes_write hf d.value hs.value hc.1.2 hstops).append hlex
  have hspace := Layout.lexes_spread hf hf.afterName ((ht ▸ hvalue).startsGap hblank) hvalue
  have hcolon := (lexes_punctuation (c := ':') (by decide)).append hspace
  have hname := (lexes_identifier hc.1.1 (Value.stops_cons (by decide))).append hcolon
  have hwrite : (d.write l).toList ++ rest = Text.Escaped.identifierChars d.name.toList ++
      ([':'] ++ (l.spread l.format.afterName.toList ++ ((d.value.write l).toList ++ behind))) := by
    rw [← hbehind, write]
    cases d.important <;> simp [Text.Escaped.identifier, Layout.toList_space]
  rw [hwrite, tokens, valueTokens, hus]
  exact hname

theorem isUnified_write (hf : l.format.IsReadable) (hs : d.IsShaped) (hc : d.isClean) :
    Text.isUnified (d.write l).toList := by
  simp only [isClean, Bool.and_eq_true] at hc
  simp only [write, Text.Escaped.identifier, String.toList_append, String.toList_ofList,
    Layout.toList_space, Text.isUnified_append]
  refine ⟨⟨⟨⟨Text.isUnified_identifierChars _, by decide⟩,
    Value.isUnified_spread hf hf.afterName⟩, Value.isUnified_write hf d.value hs.value hc.1.2⟩, ?_⟩
  split
  case isTrue =>
    rw [String.toList_append, Layout.toList_space, Text.isUnified_append]
    exact ⟨Value.isUnified_spread hf hf.beforeImportant, by decide⟩
  case isFalse => decide

theorem not_all_isWhitespace (ts : List Placed) {t : Placed} (ht : t ∈ ts) (hn : t.token ≠ .whitespace) :
    ts.all (·.token.isWhitespace) = false := by
  refine Bool.eq_false_iff.mpr fun h => hn ?_
  have := List.all_eq_true.mp h t ht
  unfold Token.isWhitespace at this
  split at this
  · assumption
  · cases this

theorem ofTokens_of_splitImportant {name : String} {position finish : Position} {v : Value}
    {important : Bool} {front value back all : List Placed}
    (hsplit : splitImportant all = (important, front ++ (value ++ back)))
    (hspell : Value.SpellsAs .whole value v) (hfront : ∀ t ∈ front, t.token = .whitespace)
    (hback : ∀ t ∈ back, t.token = .whitespace) (hvalue : t ∈ value) (ht : t.token ≠ .whitespace) :
    Declaration.ofTokens name position all finish = .ok ⟨name, v, important, position⟩ := by
  have hall := not_all_isWhitespace (front ++ (value ++ back)) (by simp [hvalue]) ht
  have hof := Value.ofTokens_of_spellsAs hspell hfront hback finish
  simp only [Declaration.ofTokens, hsplit, hall, hof]
  rfl

theorem ofTokens_of_tokens (position finish : Position) {back : List Placed} (hs : d.IsShaped)
    (hc : d.isClean) (ht : ts.map Placed.token = d.valueTokens f)
    (hb : ∀ t ∈ back, t.token = .whitespace) : ∃ e, (d.shorten f).same e ∧
      Declaration.ofTokens d.name position (ts ++ back) finish = .ok e := by
  simp only [isClean, Bool.and_eq_true] at hc
  obtain ⟨t, tail, htoken, hblank⟩ := Value.tokens_head f d.value hs.value hc.1.2
  rw [valueTokens, List.map_eq_append_iff] at ht
  obtain ⟨front, vs, hts, hfront, hvs⟩ := ht
  rw [List.map_eq_append_iff] at hvs
  obtain ⟨value, es, hes, hvalue, hend⟩ := hvs
  subst hts hes
  have hfront := Value.forall_of_blankTokens front hfront
  have hspell := Value.spellsAs_tokens d.value hs.value hc.1.2 hvalue
  -- The value is not white space alone.
  obtain ⟨first, hfirst, hne⟩ : ∃ first ∈ value, first.token ≠ .whitespace := by
    rw [htoken, List.map_eq_cons_iff] at hvalue
    obtain ⟨first, _, hv, hf, _⟩ := hvalue
    exact ⟨first, by simp [hv], hf ▸ hblank⟩
  refine ⟨⟨d.name, d.value.asRead f, d.important, position⟩, ?_, ?_⟩
  · simp [same, shorten, Value.same_asRead f hc.1.2]
  · cases hi : d.important
    case false =>
      rw [hi] at hend hc
      have hnil : es = [] := by simpa using hend
      subst hnil
      refine ofTokens_of_splitImportant ?_ hspell hfront hb hfirst hne
      rw [List.append_nil, List.append_assoc]
      refine splitImportant_of_not ?_
      simp only [List.map_append, marks_append, marks_eq_nil hfront, marks_eq_nil hb, hvalue,
        Value.marks_tokens f {}, List.append_nil, List.nil_append]
      simpa using hc.2
    case true =>
      rw [hi, if_pos rfl, List.map_eq_append_iff] at hend
      obtain ⟨bs, ws, hes, hbs, hws⟩ := hend
      rw [List.map_eq_cons_iff] at hws
      obtain ⟨bang, word, hws, hbang, hword⟩ := hws
      rw [List.map_eq_singleton_iff] at hword
      obtain ⟨w, hw, himportant⟩ := hword
      subst hes hws hw
      refine ofTokens_of_splitImportant ?_ hspell hfront (Value.forall_of_blankTokens bs hbs) hfirst
        hne
      have := splitImportant_of_important (front ++ (value ++ bs)) hbang himportant hb
      simpa using this

end Declaration
end Stylesheet
