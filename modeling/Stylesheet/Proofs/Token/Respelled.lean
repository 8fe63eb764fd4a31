import Stylesheet.Proofs.Token.ReadBack
/-!
Texts with less white space. White space that ends an escape may be any, and none at the end of the
text; so a name is the same name when the white space in it is made one blank. Main statement:
`lexeme_squeezed`.
-/

namespace Stylesheet

namespace Text

variable {c : Char} {cs ds rest : List Char} {blank : Bool}

-- A text and what is left of it in front of the rest: blanks may be made the usual one, further
-- ones left out, and at the end of the text all of them.
inductive Squeezed (rest : List Char) : Bool → List Char → List Char → Prop
  | nil {blank : Bool} : Squeezed rest blank [] []
  | keep {blank : Bool} {c : Char} {cs ds : List Char} (h : Squeezed rest false cs ds) :
    Squeezed rest blank (c :: cs) (c :: ds)
  | blank {blank : Bool} {c : Char} {cs ds : List Char} (hc : isBlank c)
    (h : Squeezed rest true cs ds) : Squeezed rest blank (c :: cs) (' ' :: ds)
  | skip {c : Char} {cs ds : List Char} (hc : isBlank c) (h : Squeezed rest true cs ds) :
    Squeezed rest true (c :: cs) ds
  | last {blank : Bool} {cs : List Char} (hr : rest = []) (hb : ∀ c ∈ cs, isBlank c) :
    Squeezed rest blank cs []

namespace Squeezed

theorem of_cons (hc : isBlank c = false) (h : Squeezed rest blank (c :: cs) ds) :
    ∃ es, ds = c :: es ∧ Squeezed rest false cs es := by
  cases h
  case keep h => exact ⟨_, rfl, h⟩
  case blank hb _ => cases hc.symm.trans hb
  case skip hb _ => cases hc.symm.trans hb
  case last hb => cases hc.symm.trans (hb c List.mem_cons_self)

theorem ne_nil (h : Squeezed rest blank cs ds) (hcs : ¬∀ c ∈ cs, isBlank c) : ds ≠ [] := by
  induction h
  case nil => exact absurd (List.forall_mem_nil _) hcs
  case keep | blank => exact List.cons_ne_nil _ _
  case skip hc _ ih => exact ih fun h => hcs (List.forall_mem_cons.mpr ⟨hc, h⟩)
  case last hb => exact absurd hb hcs

theorem isBlank_of_nil (h : Squeezed rest blank cs []) : ∀ c ∈ cs, isBlank c := by
  by_contra hcs
  exact h.ne_nil hcs rfl

-- The first character is left as it is, or is a blank.
theorem of_cons_cons (h : Squeezed rest false (c :: cs) ds) (hcs : ¬∀ d ∈ c :: cs, isBlank d) :
    ∃ d es, ds = d :: es ∧ (d = c ∨ isBlank c ∧ d = ' ') := by
  cases h
  case keep => exact ⟨_, _, rfl, .inl rfl⟩
  case blank hc _ => exact ⟨_, _, rfl, .inr ⟨hc, rfl⟩⟩
  case last hb => exact absurd hb hcs

-- A text may be cut in front of what is not all left out.
theorem split {es : List Char} (h : Squeezed rest blank (cs ++ ds) es)
    (hds : ¬∀ c ∈ ds, isBlank c) (behind : List Char) :
    ∃ blank' cs' ds', es = cs' ++ ds' ∧ ds' ≠ [] ∧
      Squeezed behind blank cs cs' ∧ Squeezed rest blank' ds ds' := by
  induction cs generalizing blank es
  case nil => exact ⟨blank, [], es, rfl, h.ne_nil hds, .nil, h⟩
  case cons c cs ih =>
    rw [List.cons_append] at h
    cases h
    case keep h =>
      obtain ⟨blank', cs', ds', rfl, hne, hcs, hds⟩ := ih h
      exact ⟨blank', c :: cs', ds', rfl, hne, .keep hcs, hds⟩
    case blank hc h =>
      obtain ⟨blank', cs', ds', rfl, hne, hcs, hds⟩ := ih h
      exact ⟨blank', ' ' :: cs', ds', rfl, hne, .blank hc hcs, hds⟩
    case skip hc h =>
      obtain ⟨blank', cs', ds', rfl, hne, hcs, hds⟩ := ih h
      exact ⟨blank', cs', ds', rfl, hne, .skip hc hcs, hds⟩
    case last hb =>
      exact absurd (fun d hd => hb d (List.mem_cons_of_mem _ (List.mem_append_right _ hd))) hds

theorem isBlank_of_mem (h : Squeezed rest blank cs ds) (hcs : ∀ c ∈ cs, isBlank c) :
    ∀ c ∈ ds, isBlank c := by
  induction h
  case nil => exact hcs
  case keep ih =>
    obtain ⟨hc, hcs⟩ := List.forall_mem_cons.mp hcs
    exact List.forall_mem_cons.mpr ⟨hc, ih hcs⟩
  case blank ih =>
    exact List.forall_mem_cons.mpr ⟨by decide, ih (List.forall_mem_cons.mp hcs).2⟩
  case skip ih => exact ih (List.forall_mem_cons.mp hcs).2
  case last => exact List.forall_mem_nil _

-- Where no white space begins, none is left out.
theorem of_not_isBlank {blank' : Bool} (h : Squeezed rest blank (c :: cs) ds)
    (hc : isBlank c = false) : Squeezed rest blank' (c :: cs) ds := by
  obtain ⟨es, rfl, hes⟩ := h.of_cons hc
  exact .keep hes

theorem of_append (hw : ∀ c ∈ cs, isBlank c = false) {es : List Char}
    (h : Squeezed rest blank (cs ++ ds) es) : ∃ blank' es', es = cs ++ es' ∧
      Squeezed rest blank' ds es' ∧ (cs = [] → blank' = blank) ∧ (cs ≠ [] → blank' = false) := by
  induction cs generalizing blank es
  case nil => exact ⟨blank, es, rfl, h, fun _ => rfl, fun h => absurd rfl h⟩
  case cons c cs ih =>
    obtain ⟨hc, hcs⟩ := List.forall_mem_cons.mp hw
    obtain ⟨fs, rfl, hfs⟩ := h.of_cons hc
    obtain ⟨blank', es', rfl, hes, hnil, hcons⟩ := ih hcs hfs
    refine ⟨blank', es', rfl, hes, fun h => (by cases h), fun _ => ?_⟩
    cases cs
    case nil => exact hnil rfl
    case cons => exact hcons (List.cons_ne_nil _ _)

end Squeezed

end Text

namespace Lexing

variable {multibyte : Bool} {pending : Pending} {c : Char} {cs z z' w w' rest : List Char}
  {t : Token}

/-! ### Names -/

namespace Pending

-- What an escape waits for behind one more character of a name.
def next (pending : Pending) (c : Char) : Pending :=
  (pending.take? c).getD (if c = '\\' then any else nothing)

theorem next_nothing (hc : c ≠ '\\') : next nothing c = nothing := by
  simp [next, take?, hc]

theorem not_isHexDigit (hc : Text.isBlank c) : Text.isHexDigit c = false :=
  eq_false_of_ne_true fun hx => by
    have := Text.of_isAscii (p := fun c => !(Text.isBlank c && Text.isHexDigit c)) (by decide)
      (isAscii_of_isHexDigit hx)
    simp [hc, hx] at this

theorem take?_hex_blank {left code : Nat} (hc : Text.isBlank c) :
    (hex left code).take? c = some nothing := by
  simp [take?, hc, not_isHexDigit hc]

end Pending

-- What names and targets are: `goes` says whether a character that no escape takes belongs to it,
-- given whether it begins an escape.
def spanOf (goes : Char → Bool → Bool) : Pending → List Char → Span
  | _, [] => ([], [])
  | pending, c :: rest =>
    if (pending.take? c).isSome || goes c (startsEscape (c :: rest)) then
      extend c (spanOf goes (pending.next c) rest)
    else ([], c :: rest)

theorem nameSpan_eq (pending : Pending) (cs : List Char) : nameSpan multibyte pending cs =
    spanOf (fun c escapes => isNameChar multibyte c || escapes) pending cs := by
  induction cs generalizing pending
  case nil => rfl
  case cons c cs ih =>
    rw [nameSpan, spanOf, Pending.next]
    cases pending.take? c
    case some => simp [ih]
    case none =>
      by_cases hc : isNameChar multibyte c
      case pos =>
        have hb : c ≠ '\\' := by
          rintro rfl
          cases multibyte <;> cases hc
        simp [hc, hb, ih]
      case neg =>
        by_cases hb : c = '\\'
        case pos =>
          subst hb
          simp [hc, ih]
        case neg => simp [hc, startsEscape_cons hb]

theorem targetSpan_eq (pending : Pending) (cs : List Char) : targetSpan pending cs =
    spanOf (fun c escapes => !endsTarget c && (c != '\\' || escapes)) pending cs := by
  induction cs generalizing pending
  case nil => rfl
  case cons c cs ih =>
    rw [targetSpan, spanOf, Pending.next]
    cases pending.take? c
    case some => simp [ih]
    case none =>
      by_cases hb : c = '\\'
      case pos =>
        have hends : endsTarget '\\' = false := by decide
        simp [hb, hends, ih]
      case neg => cases he : endsTarget c <;> simp [hb, ih]

-- A name is decoded one character at a time.
theorem exists_unescape_cons (pending : Pending) (c : Char) :
    ∃ f : List Char → List Char,
      ∀ cs, unescape pending (c :: cs) = (unescape (pending.next c) cs).map f := by
  cases pending
  case nothing =>
    by_cases hb : c = '\\'
    · subst hb
      exact ⟨id, fun _ => by rw [Except.map_id]; rfl⟩
    · exact ⟨_, fun cs => by rw [unescape, if_neg hb, Pending.next_nothing hb]⟩
  case any =>
    have hnext : Pending.any.next c =
        if Text.isHexDigit c then .hex 5 (Text.hexValue c) else .nothing := rfl
    by_cases hx : Text.isHexDigit c
    · exact ⟨id, fun cs => by rw [unescape, if_pos hx, hnext, if_pos hx, Except.map_id]; rfl⟩
    · by_cases hn : c = '\n'
      · exact ⟨id, fun cs => by
          rw [unescape, if_neg hx, if_pos hn, hnext, if_neg hx, Except.map_id]; rfl⟩
      · exact ⟨_, fun cs => by rw [unescape, if_neg hx, if_neg hn, hnext, if_neg hx]⟩
  case hex left code =>
    by_cases hx : 0 < left && Text.isHexDigit c
    · have hnext : Pending.next (.hex left code) c =
          .hex (left - 1) (16 * code + Text.hexValue c) := by simp [Pending.next, Pending.take?, hx]
      exact ⟨id, fun cs => by rw [unescape, if_pos hx, hnext, Except.map_id]; rfl⟩
    · by_cases hb : Text.isBlank c
      · have hnext : Pending.next (.hex left code) c = .nothing := by
          simp [Pending.next, Pending.take?, hx, hb]
        exact ⟨_, fun cs => by rw [unescape, if_neg hx, if_pos hb, hnext]⟩
      · have hnext : Pending.next (.hex left code) c = if c = '\\' then .any else .nothing := by
          simp [Pending.next, Pending.take?, hx, hb]
        by_cases he : c = '\\'
        · exact ⟨_, fun cs => by rw [unescape, if_neg hx, if_neg hb, if_pos he, hnext, if_pos he]⟩
        · exact ⟨_, fun cs => by rw [unescape, if_neg hx, if_neg hb, if_neg he, hnext, if_neg he]⟩

theorem unescape_hex_blank {left code : Nat} (hc : Text.isBlank c) :
    unescape (.hex left code) (c :: cs) = (unescape .nothing cs).map (charOfCode code :: ·) := by
  have hx := Pending.not_isHexDigit hc
  simp [unescape, hc, hx]

-- The same name. White space behind a hexadecimal escape is made one blank, or left out at the end
-- of the text.
inductive Respells (rest : List Char) : Pending → List Char → List Char → Prop
  | nil {pending : Pending} : Respells rest pending [] []
  | cons {pending : Pending} {c : Char} {z z' : List Char} (h : Respells rest (pending.next c) z z') :
    Respells rest pending (c :: z) (c :: z')
  | blank {left code : Nat} {c : Char} {z z' : List Char} (hc : Text.isBlank c)
    (h : Respells rest .nothing z z') : Respells rest (.hex left code) (c :: z) (' ' :: z')
  | last {left code : Nat} {c : Char} (hc : Text.isBlank c) (hr : rest = []) :
    Respells rest (.hex left code) [c] []

namespace Respells

-- An escape is of the same character.
theorem of_any (h : Respells rest .any (c :: z) z') : ∃ z'', z' = c :: z'' := by
  cases h
  exact ⟨_, rfl⟩

theorem of_nothing (h : Respells rest .nothing (c :: z) z') :
    ∃ z'', z' = c :: z'' ∧ Respells rest (Pending.next .nothing c) z z'' := by
  cases h
  case cons h => exact ⟨_, rfl, h⟩

theorem mono {behind : List Char} (h : Respells behind pending z z')
    (hb : behind = [] → rest = []) : Respells rest pending z z' := by
  induction h
  case nil => exact .nil
  case cons ih => exact .cons ih
  case blank hc _ ih => exact .blank hc ih
  case last hc hr => exact .last hc (hb hr)

-- A character begins an escape in front of both or of neither.
theorem startsEscape (h : Respells rest (pending.next c) z z') (hc : pending.take? c = none) :
    startsEscape (c :: (z' ++ rest)) = startsEscape (c :: (z ++ rest)) := by
  by_cases hb : c = '\\'
  case neg => rw [startsEscape_cons hb, startsEscape_cons hb]
  case pos =>
    subst hb
    have hnext : pending.next '\\' = .any := by simp [Pending.next, hc]
    rw [hnext] at h
    cases z
    case nil =>
      cases h
      rfl
    case cons =>
      obtain ⟨z', rfl⟩ := h.of_any
      rfl

-- It ends where the span ended.
theorem spanOf {goes : Char → Bool → Bool} (h : Respells rest pending z z')
    (hs : spanOf goes pending (z ++ rest) = (z, rest)) :
    Lexing.spanOf goes pending (z' ++ rest) = (z', rest) := by
  induction h
  case nil => exact hs
  case cons pending c z z' h ih =>
    rw [List.cons_append, Lexing.spanOf] at hs ⊢
    split at hs
    case isFalse => cases (Prod.mk.inj hs).1
    case isTrue hc =>
      obtain ⟨hz, hr⟩ := Prod.mk.inj hs
      rw [if_pos, ih (Prod.ext (List.cons.inj hz).2 hr)]
      · rfl
      · cases htake : pending.take? c
        case some => rfl
        case none => rwa [htake, ← h.startsEscape htake] at hc
  case blank hc _ ih =>
    simp only [List.cons_append, Lexing.spanOf, Pending.next, Pending.take?_hex_blank hc,
      Pending.take?_hex_blank isBlank_blank, Option.isSome_some, Option.getD_some, Bool.true_or,
      if_true] at hs ⊢
    obtain ⟨hz, hr⟩ := Prod.mk.inj hs
    rw [ih (Prod.ext (List.cons.inj hz).2 hr)]
    rfl
  case last hr =>
    subst hr
    rfl

theorem nameSpan (h : Respells rest pending z z')
    (hs : nameSpan multibyte pending (z ++ rest) = (z, rest)) :
    Lexing.nameSpan multibyte pending (z' ++ rest) = (z', rest) := by
  rw [nameSpan_eq] at hs ⊢
  exact h.spanOf hs

theorem targetSpan (h : Respells rest pending z z')
    (hs : targetSpan pending (z ++ rest) = (z, rest)) :
    Lexing.targetSpan pending (z' ++ rest) = (z', rest) := by
  rw [targetSpan_eq] at hs ⊢
  exact h.spanOf hs

theorem unescape (h : Respells rest pending z z') :
    Lexing.unescape pending z' = Lexing.unescape pending z := by
  induction h
  case nil => rfl
  case cons pending c _ _ _ ih =>
    obtain ⟨f, hf⟩ := exists_unescape_cons pending c
    rw [hf, hf, ih]
  case blank hc _ ih => rw [unescape_hex_blank hc, unescape_hex_blank isBlank_blank, ih]
  case last hc _ =>
    rw [unescape_hex_blank hc]
    rfl

-- Names that are spelled differently look alike.
theorem looksLike (h : Respells rest .nothing z z')
    (hs : Lexing.nameSpan multibyte .nothing (z ++ rest) = (z, rest)) :
    LooksLike multibyte (z ++ rest) (z' ++ rest) ∧
      LooksLike multibyte (z' ++ rest) (z ++ rest) := by
  induction z generalizing z'
  case nil =>
    cases h
    case nil => exact ⟨.refl, .refl⟩
  case cons c z ih =>
    obtain ⟨z'', rfl, hz⟩ := h.of_nothing
    rw [List.cons_append, nameSpan_eq, Lexing.spanOf] at hs
    split at hs
    case isFalse => cases (Prod.mk.inj hs).1
    case isTrue hc =>
      obtain ⟨hw, hr⟩ := Prod.mk.inj hs
      have hspan : Lexing.nameSpan multibyte (Pending.next .nothing c) (z ++ rest) = (z, rest) :=
        (nameSpan_eq ..).trans (Prod.ext (List.cons.inj hw).2 hr)
      by_cases hb : c = '\\'
      case neg =>
        rw [Pending.next_nothing hb] at hspan hz
        obtain ⟨h₁, h₂⟩ := ih hz hspan
        exact ⟨h₁.cons hb, h₂.cons hb⟩
      case pos =>
        subst hb
        cases z
        case nil =>
          have hbackslash : isNameChar multibyte '\\' = false := by cases multibyte <;> rfl
          cases rest
          case nil => simp [Pending.take?, hbackslash, Lexing.startsEscape] at hc
          case cons => cases (Prod.mk.inj hspan).1
        case cons d z =>
          obtain ⟨z, rfl⟩ := of_any hz
          exact ⟨.escaped .., .escaped ..⟩

end Respells

/-! ### White space in names -/

-- Whether white space in a name in front of a text may be squeezed: it is a blank that is escaped,
-- or it ends an escape; and no white space is behind it, except at the end of the text.
def keepsBlanks (behind : List Char) : Pending → List Char → Bool
  | _, [] => true
  | pending, c :: z =>
    (!Text.isBlank c || match pending with
      | .nothing => false
      | .any => c == ' ' && !(z ++ behind).isEmpty && !startsBlank (z ++ behind)
      | .hex _ _ => !startsBlank (z ++ behind) || (z ++ behind).all Text.isBlank) &&
    keepsBlanks behind (pending.next c) z

theorem keepsBlanks_append {behind : List Char} (h : keepsBlanks behind pending (z ++ w)) :
    keepsBlanks (w ++ behind) pending z := by
  induction z generalizing pending
  case nil => rfl
  case cons c z ih =>
    simp only [List.cons_append, keepsBlanks, List.append_assoc, Bool.and_eq_true] at h ⊢
    exact ⟨h.1, ih h.2⟩

theorem keepsBlanks_of_append {behind : List Char} (hz : '\\' ∉ z)
    (h : keepsBlanks behind .nothing (z ++ w)) : keepsBlanks behind .nothing w := by
  induction z
  case nil => exact h
  case cons c z ih =>
    rw [List.mem_cons, not_or] at hz
    simp only [List.cons_append, keepsBlanks, Bool.and_eq_true,
      Pending.next_nothing (Ne.symm hz.1)] at h
    exact ih hz.2 h.2

theorem respells_of_squeezed {behind : List Char} {blank : Bool}
    (hs : Text.Squeezed rest blank z z') (hk : keepsBlanks behind pending z)
    (hb : blank → pending = .nothing) (hr : rest = [] → ∀ c ∈ behind, Text.isBlank c) :
    Respells rest pending z z' := by
  induction hs generalizing pending
  case nil => exact .nil
  case keep ih =>
    simp only [keepsBlanks, Bool.and_eq_true] at hk
    exact .cons (ih hk.2 (by simp))
  case blank c _ _ hc _ ih =>
    simp only [keepsBlanks, hc, Bool.not_true, Bool.false_or, Bool.and_eq_true] at hk
    cases pending
    case nothing => cases hk.1
    case any =>
      obtain ⟨hspace, hk⟩ := hk
      obtain rfl : c = ' ' := by simp_all
      exact .cons (ih hk fun _ => rfl)
    case hex left code =>
      have hnext : Pending.next (.hex left code) c = .nothing := by
        simp [Pending.next, Pending.take?_hex_blank hc]
      rw [hnext] at hk
      exact .blank hc (ih hk.2 fun _ => rfl)
  case skip hc _ _ =>
    rw [hb rfl] at hk
    simp [keepsBlanks, hc] at hk
  case last blank cs hrest hblanks =>
    cases cs
    case nil => exact .nil
    case cons c cs =>
      obtain ⟨hc, hcs⟩ := List.forall_mem_cons.mp hblanks
      simp only [keepsBlanks, hc, Bool.not_true, Bool.false_or, Bool.and_eq_true] at hk
      cases pending
      case nothing => cases hk.1
      case any =>
        -- Behind an escaped blank there would be no other character.
        simp only [Bool.and_eq_true] at hk
        obtain ⟨⟨⟨-, hne⟩, hstarts⟩, -⟩ := hk
        have hall : ∀ c ∈ cs ++ behind, Text.isBlank c :=
          List.forall_mem_append.mpr ⟨hcs, hr hrest⟩
        cases hcb : cs ++ behind
        case nil => simp [hcb] at hne
        case cons d ds => simp [hcb, startsBlank, hall d (hcb ▸ List.mem_cons_self)] at hstarts
      case hex left code =>
        have hnext : Pending.next (.hex left code) c = .nothing := by
          simp [Pending.next, Pending.take?_hex_blank hc]
        rw [hnext] at hk
        cases cs
        case nil => exact .last hc hrest
        case cons d cs => simp [keepsBlanks, hcs d List.mem_cons_self] at hk

/-! ### Lexemes -/

variable {token : String → Token} {mark : Char}

theorem named_respelled (hz : Respells rest .nothing z z')
    (h : named multibyte token mark (z ++ rest) = ⟨.ok t, mark :: z, rest⟩) :
    named multibyte token mark (z' ++ rest) = ⟨.ok t, mark :: z', rest⟩ := by
  have hs := nameSpan_of_named h
  simp only [named, hs, Lexeme.decoded] at h
  simp only [named, hz.nameSpan hs, Lexeme.decoded, hz.unescape]
  split at h
  case h_1 =>
    cases h
    rfl
  case h_2 => cases h

theorem startsName_respelled (hz : Respells rest .nothing z z')
    (hs : nameSpan multibyte .nothing (z ++ rest) = (z, rest)) :
    startsName multibyte (z ++ rest) = startsName multibyte (z' ++ rest) := by
  obtain ⟨h₁, h₂⟩ := hz.looksLike hs
  exact Bool.eq_iff_iff.mpr ⟨h₂.name, h₁.name⟩

theorem startsIdentifier_respelled (hz : Respells rest .nothing z z')
    (hs : nameSpan multibyte .nothing (z ++ rest) = (z, rest)) :
    startsIdentifier multibyte (z ++ rest) = startsIdentifier multibyte (z' ++ rest) := by
  obtain ⟨h₁, h₂⟩ := hz.looksLike hs
  exact Bool.eq_iff_iff.mpr ⟨h₂.identifier, h₁.identifier⟩

theorem unit_respelled {u : Except LexicalFault (Option String)}
    (hz : Respells rest .nothing z z') (h : unit multibyte (z ++ rest) = (u, z, rest)) :
    unit multibyte (z' ++ rest) = (u, z', rest) ∧
      LooksLike multibyte (z ++ rest) (z' ++ rest) := by
  cases z
  case nil =>
    cases hz
    exact ⟨h, .refl⟩
  case cons c z =>
    obtain ⟨z', rfl, hz'⟩ := hz.of_nothing
    by_cases hp : c = '%'
    case pos =>
      subst hp
      obtain ⟨rfl, hw⟩ := Prod.mk.inj h
      obtain rfl : z = [] := (List.cons.inj (Prod.mk.inj hw).1).2.symm
      cases hz'
      exact ⟨rfl, .refl⟩
    case neg =>
      have hne {cs : List Char} : (c :: cs).head? ≠ some '%' := by simpa using hp
      rw [List.cons_append, unit_of_ne hne] at h
      split at h
      case isFalse => cases (Prod.mk.inj (Prod.mk.inj h).2).1
      case isTrue hi =>
        obtain ⟨hu, hs⟩ := Prod.mk.inj h
        rw [← List.cons_append] at hi hu hs
        rw [startsIdentifier_respelled hz hs] at hi
        refine ⟨?_, (hz.looksLike hs).1⟩
        rw [List.cons_append, unit_of_ne hne, ← List.cons_append, if_pos hi, hz.nameSpan hs,
          hz.unescape, ← hu, hs]

theorem not_isBlank_numeral (h : numeral cs = (w, rest)) : ∀ c ∈ w, Text.isBlank c = false := by
  intro c hc
  have hascii : Text.isAscii c := by
    obtain hc | hc := of_mem_numeral h c hc
    · exact isAscii_of_isNumeric hc
    · simp only [isExponentLetter, Bool.or_eq_true, beq_iff_eq] at hc
      obtain rfl | rfl := hc <;> decide
  have := Text.of_isAscii
    (p := fun c => !((isNumeric c || isExponentLetter c) && Text.isBlank c)) (by decide) hascii
  rcases of_mem_numeral h c hc with hn | hn <;> simpa [hn] using this

theorem number_squeezed {behind : List Char} (hs : Text.Squeezed rest false w w')
    (hk : keepsBlanks behind .nothing (c :: w)) (hr : rest = [] → ∀ c ∈ behind, Text.isBlank c)
    (h : number multibyte (c :: (w ++ rest)) = ⟨.ok t, c :: w, rest⟩)
    (hn : startsNumber (c :: (w ++ rest))) :
    number multibyte (c :: (w' ++ rest)) = ⟨.ok t, c :: w', rest⟩ ∧
      startsNumber (c :: (w' ++ rest)) := by
  obtain ⟨written, behind', u, taken, hnumeral, hu, hw⟩ := of_number h
  have hne : written ≠ [] := by simpa [hnumeral] using numeral_ne_nil hn
  have happend := unit_append multibyte behind'
  rw [hu] at happend
  have hkeep : Text.Squeezed rest false (written ++ taken) (c :: w') := hw ▸ .keep hs
  obtain ⟨blank, taken', hw', htaken, -, hnot⟩ := hkeep.of_append (not_isBlank_numeral hnumeral)
  rw [hnot hne] at htaken
  have htaken' := respells_of_squeezed htaken (keepsBlanks_of_append (not_mem_numeral hnumeral)
    (hw ▸ hk)) (by simp) hr
  rw [← happend] at hu
  obtain ⟨hunit, hlook⟩ := unit_respelled htaken' hu
  rw [← List.cons_append, hw', List.append_assoc]
  exact ⟨number_unit h hnumeral hne (happend ▸ hu) (happend ▸ hlook.continuesLess) hunit,
    startsNumber_numeral _ h hnumeral hn⟩

theorem identifierLike_squeezed {behind : List Char} (hs : Text.Squeezed rest false w w')
    (hk : keepsBlanks behind .nothing (c :: w)) (hr : rest = [] → ∀ c ∈ behind, Text.isBlank c)
    (h : identifierLike multibyte (c :: (w ++ rest)) = ⟨.ok t, c :: w, rest⟩)
    (hi : startsIdentifier multibyte (c :: (w ++ rest))) (ht : ∀ target, t ≠ .url target) :
    identifierLike multibyte (c :: (w' ++ rest)) = ⟨.ok t, c :: w', rest⟩ ∧
      startsIdentifier multibyte (c :: (w' ++ rest)) := by
  obtain ⟨z, r, hspan⟩ : ∃ z r, nameSpan multibyte .nothing (c :: (w ++ rest)) = (z, r) :=
    ⟨_, _, rfl⟩
  have hkeep : Text.Squeezed rest false (c :: w) (c :: w') := .keep hs
  by_cases hparen : r.head? = some '('
  case pos =>
    obtain ⟨r, rfl⟩ := List.head?_eq_some_iff.mp hparen
    simp only [identifierLike, hspan] at h
    split at h
    case h_1 => cases h
    case h_2 word hword =>
      split at h
      case isTrue =>
        obtain ⟨target, _, rfl, -⟩ := urlText_of_url h
        exact absurd rfl (ht target)
      case isFalse hu =>
        obtain ⟨ht, hw, rfl⟩ := Lexeme.mk.inj h
        rw [← hw] at hkeep hk
        rw [← List.cons_append, ← hw, List.append_assoc, List.singleton_append] at hspan hi
        -- The parenthesis stays where it is.
        obtain ⟨blank, z', y, hw', hne, hz, hy⟩ := hkeep.split (by decide) ('(' :: r)
        obtain ⟨es, rfl, hes⟩ := hy.of_cons (by decide)
        obtain rfl : es = [] := by cases hes <;> rfl
        have hz := respells_of_squeezed hz (keepsBlanks_append hk) (by simp) (by simp)
        rw [← List.cons_append, hw', List.append_assoc, List.singleton_append]
        rw [startsIdentifier_respelled hz hspan] at hi
        refine ⟨?_, hi⟩
        simp only [identifierLike, hz.nameSpan hspan, hz.unescape, hword, hu, if_false,
          Bool.false_eq_true, ← ht]
  case neg =>
    rw [identifierLike_of_ne hspan hparen] at h
    obtain ⟨rfl, -, name, hname, rfl⟩ := of_decoded h
    obtain rfl : z = c :: w := by
      have := nameSpan_append multibyte .nothing (c :: (w ++ rest))
      rw [hspan] at this
      exact List.append_cancel_right this
    have hz := respells_of_squeezed hkeep hk (by simp) hr
    rw [← List.cons_append] at hspan hi ⊢
    rw [startsIdentifier_respelled hz hspan] at hi
    refine ⟨?_, hi⟩
    rw [identifierLike_of_ne (hz.nameSpan hspan) hparen]
    simp [Lexeme.decoded, hz.unescape, hname]

-- A token is the same with less white space in its text, if there is none but in escapes.
theorem lexeme_squeezed {behind : List Char} (hs : Text.Squeezed rest false w w')
    (hk : keepsBlanks behind .nothing (c :: w)) (hr : rest = [] → ∀ c ∈ behind, Text.isBlank c)
    (h : lexeme multibyte c (w ++ rest) = ⟨.ok t, c :: w, rest⟩)
    (ht : ∀ s, t ≠ .string s ∧ t ≠ .url s) :
    lexeme multibyte c (w' ++ rest) = ⟨.ok t, c :: w', rest⟩ := by
  -- What is behind a mark is a name.
  have hname (hb : c ≠ '\\') : Respells rest .nothing w w' := by
    simp only [keepsBlanks, Pending.next_nothing hb, Bool.and_eq_true] at hk
    exact respells_of_squeezed hs hk.2 (by simp) hr
  revert h
  fun_cases lexeme multibyte c (w ++ rest)
  case case1 =>
    intro h
    unfold string at h
    split at h
    case h_1 =>
      obtain ⟨-, -, s, -, rfl⟩ := of_decoded h
      exact absurd rfl (ht _).1
    case h_2 => cases h
  case case2 hq hc =>
    intro h
    simp only [Bool.and_eq_true, decide_eq_true_eq] at hc
    obtain ⟨rfl, hn⟩ := hc
    have hz := hname (by decide)
    rw [startsName_respelled hz (nameSpan_of_named h)] at hn
    simp only [lexeme, hq, hn, decide_true, Bool.and_self, if_true, Bool.false_eq_true, if_false]
    exact named_respelled hz h
  case case3 hq _ hc =>
    intro h
    simp only [Bool.and_eq_true, decide_eq_true_eq] at hc
    obtain ⟨rfl, hi⟩ := hc
    have hz := hname (by decide)
    rw [startsIdentifier_respelled hz (nameSpan_of_named h)] at hi
    have hhash : ('@' = '#') = False := by decide
    simp only [lexeme, hq, hi, hhash, decide_false, decide_true, Bool.and_self, Bool.false_and,
      if_true, Bool.false_eq_true, if_false]
    exact named_respelled hz h
  case case4 hq _ _ hn =>
    intro h
    obtain ⟨hnumber, hn'⟩ := number_squeezed hs hk hr h hn
    have hhash : c ≠ '#' := by rintro rfl; cases hn
    have hat : c ≠ '@' := by rintro rfl; cases hn
    simp only [lexeme, hq, hhash, hat, hn', decide_false, Bool.false_and, if_true,
      Bool.false_eq_true, if_false]
    exact hnumber
  case case5 hi =>
    intro h
    obtain ⟨hidentifier, hi'⟩ := identifierLike_squeezed hs hk hr h hi fun s => (ht s).2
    exact (lexeme_of_startsIdentifier hi').trans hidentifier
  case case6 => exact fun h => by cases h
  case case7 hq hhash hat hn hi hb ha =>
    intro h
    obtain rfl : w = [] := (List.cons.inj (Lexeme.mk.inj h).2.1).2.symm
    obtain rfl : w' = [] := by cases hs <;> rfl
    rw [← h, List.nil_append]
    simp only [List.nil_append] at hhash hat hn hi
    rw [lexeme, if_neg hq, if_neg hhash, if_neg hat, if_neg hn, if_neg hi, if_neg hb, if_pos ha]
  case case8 => exact fun h => by cases h

/-! ### Targets -/

theorem urlText_squeezed {blank : Bool} {front target back name : List Char}
    (hf : ∀ c ∈ front, Text.isBlank c) (hb : ∀ c ∈ back, Text.isBlank c)
    (hn : target = [] → back = [])
    (ht : ∀ rest, targetSpan .nothing (target ++ (back ++ ')' :: rest)) =
      (target, back ++ ')' :: rest))
    (hname : unescape .nothing target = .ok name) (hk : keepsBlanks [')'] .nothing target)
    (hs : Text.Squeezed rest blank (front ++ (target ++ (back ++ [')']))) w) :
    UrlText (String.ofList name) w := by
  have hparen {cs : List Char} : ¬∀ c ∈ cs ++ [')'], Text.isBlank c :=
    fun h => absurd (h ')' (by simp)) (by decide)
  have hlast {blank : Bool} {w : List Char} (h : Text.Squeezed rest blank [')'] w) : w = [')'] := by
    obtain ⟨es, rfl, hes⟩ := h.of_cons (by decide)
    cases hes <;> rfl
  obtain ⟨b₁, front', y, rfl, -, hfront, hy⟩ := hs.split
    (by rw [← List.append_assoc]; exact hparen) [')']
  have hf' := hfront.isBlank_of_mem hf
  cases target
  case nil =>
    obtain rfl := hn rfl
    obtain rfl := hlast hy
    exact @UrlText.bare _ front' [] [] _ hf' (List.forall_mem_nil _) (fun _ => rfl) ht hname rfl
  case cons e es =>
    have he : Text.isBlank e = false := by
      have := not_endsTarget_of_targetSpan (ht [])
      simp only [endsTarget, Bool.or_eq_false_iff] at this
      exact this.1.1.2
    have hy' : Text.Squeezed rest false (e :: es ++ (back ++ [')'])) y := hy.of_not_isBlank he
    obtain ⟨b₂, target', v, rfl, -, htarget, hv⟩ := hy'.split hparen [')']
    obtain ⟨b₃, back', u, rfl, -, hback, hu⟩ := hv.split (@hparen []) [')']
    obtain rfl := hlast hu
    have hspells := respells_of_squeezed htarget hk (by simp) (by simp)
    refine .bare hf' (hback.isBlank_of_mem hb) ?_ (fun r => ?_)
      (by rw [hspells.unescape, hname]) rfl
    · rintro rfl
      obtain ⟨z, hz⟩ := hspells.of_nothing
      cases hz.1
    · have hnil : back = [] → back' = [] := by
        rintro rfl
        cases hback <;> rfl
      exact (hspells.mono (by simp)).targetSpan
        (targetSpan_back hb (hback.isBlank_of_mem hb) hnil (ht []) r)

-- A url is taken off a text by its name and what is in its parentheses.
theorem of_lexeme_url {s : String} (hb : Text.isBlank c = false)
    (h : lexeme multibyte c (w ++ rest) = ⟨.ok (.url s), c :: w, rest⟩) :
    ∃ z x word, w = z ++ '(' :: x ∧ startsIdentifier multibyte (c :: (w ++ rest)) ∧
      nameSpan multibyte .nothing (c :: (w ++ rest)) = (c :: z, '(' :: (x ++ rest)) ∧
      unescape .nothing (c :: z) = .ok word ∧ Text.sameWord (String.ofList word) "url" ∧
      UrlText s x := by
  have hi : startsIdentifier multibyte (c :: (w ++ rest)) := reads_of_lexeme hb h
  rw [lexeme_of_startsIdentifier hi] at h
  have happend := nameSpan_append multibyte .nothing (c :: (w ++ rest))
  obtain ⟨z, r, hspan⟩ : ∃ z r, nameSpan multibyte .nothing (c :: (w ++ rest)) = (c :: z, r) := by
    obtain ⟨d, z, hz⟩ := List.exists_cons_of_ne_nil (nameSpan_ne_nil hi)
    rw [hz] at happend
    obtain rfl := (List.cons.inj happend).1
    exact ⟨z, _, Prod.ext hz rfl⟩
  rw [hspan] at happend
  by_cases hparen : r.head? = some '('
  case pos =>
    obtain ⟨r, rfl⟩ := List.head?_eq_some_iff.mp hparen
    simp only [identifierLike, hspan] at h
    split at h
    case h_1 => cases h
    case h_2 word hword =>
      split at h
      case isTrue hurl =>
        obtain ⟨s', x, hs, rfl, hx⟩ := urlText_of_url h
        obtain rfl := Token.url.inj hs
        have hw : z ++ '(' :: x ++ rest = w ++ rest := by simpa using happend
        exact ⟨z, x, word, (List.append_cancel_right hw).symm, hi, hspan, hword, hurl, hx⟩
      case isFalse => cases h
  case neg =>
    rw [identifierLike_of_ne hspan hparen] at h
    obtain ⟨-, -, _, -, hs⟩ := of_decoded h
    cases hs

theorem lexeme_of_urlText {s : String} {z x word : List Char}
    (hs : nameSpan multibyte .nothing (c :: cs) = (z, '(' :: (x ++ rest)))
    (hi : startsIdentifier multibyte (c :: cs)) (hword : unescape .nothing z = .ok word)
    (hurl : Text.sameWord (String.ofList word) "url") (hx : UrlText s x) :
    lexeme multibyte c cs = ⟨.ok (.url s), z ++ '(' :: x, rest⟩ := by
  obtain ⟨taken, htaken⟩ := url_of_urlText hx (z ++ ['(']) rest
  have happend := url_append (z ++ ['(']) (x ++ rest)
  rw [htaken, ← List.append_assoc, List.append_cancel_right_eq] at happend
  have happend : taken = z ++ ['('] ++ x := happend
  rw [lexeme_of_startsIdentifier hi, List.append_cons, ← happend, ← htaken]
  simp only [identifierLike, hs, hword, hurl, if_true]

-- An url with another spelling of its name and another text of its target, in front of any text.
theorem lexeme_url_respelled {s : String} {x x' word : List Char}
    (hs : nameSpan multibyte .nothing (c :: cs) = (c :: z, '(' :: (x ++ rest)))
    (hi : startsIdentifier multibyte (c :: cs)) (hword : unescape .nothing (c :: z) = .ok word)
    (hurl : Text.sameWord (String.ofList word) "url")
    (hz : Respells ['('] .nothing (c :: z) (c :: z')) (hx : UrlText s x') (rest' : List Char) :
    lexeme multibyte c (z' ++ '(' :: (x' ++ rest')) =
      ⟨.ok (.url s), c :: (z' ++ '(' :: x'), rest'⟩ := by
  have hlook := @LooksLike.inert multibyte '(' (by decide) (x ++ rest) (x' ++ rest')
  have hspan := nameSpan_congr hs (by simp) hlook.continuesLess
  have hi' := startsIdentifier_congr ('(' :: (x' ++ rest')) hs hi
  have hz : Respells ('(' :: (x' ++ rest')) .nothing (c :: z) (c :: z') := hz.mono (by simp)
  rw [startsIdentifier_respelled hz hspan] at hi'
  exact lexeme_of_urlText (hz.nameSpan hspan) hi' (hz.unescape.trans hword) hurl hx

end Lexing
end Stylesheet
