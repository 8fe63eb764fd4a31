import Stylesheet.Proofs.Token.Respelled
import Stylesheet.Proofs.Token.WellFormed
/-!
Text with less white space between its tokens. A gap stays a gap, with white space in it or without,
and what is behind a token goes on as before. Main statements: `exists_gap_squeezed`,
`looksLike_squeezed`.
-/

namespace Stylesheet.Lexing

open Text (Squeezed)

variable {multibyte blank found : Bool} {c : Char} {cs ds rest behind : List Char}
  {comment : Option Position} {p q : Position}

/-! ### Gaps -/

theorem gap_blank_cons (hc : Text.isBlank c) :
    gap found none p (c :: cs) = gap true none (p.next c) cs := by
  rw [gap, if_pos hc]
  rintro es rfl
  exact absurd hc (by decide)

-- A text that is read as a gap also with less white space, and has white space then if it had
-- before, but at the end of a text.
def IsGap (found : Bool) (comment : Option Position) (g : List Char) (blank : Bool) : Prop :=
  ∀ {b : Bool} {behind g' rest : List Char} {p : Position}, Squeezed behind b g g' →
    (comment = none → b → found) → startsGap rest = false → ∀ start : Position, ∃ blank' q,
      gap found (comment.map fun _ => start) p (g' ++ rest) = ⟨.ok blank', rest, q⟩ ∧
        (behind ≠ [] → blank' = blank)

-- A comment that goes on also does so with less white space.
theorem not_endsComment_squeezed {g g' rest' : List Char} (hs : Squeezed behind false g g')
    (hg : ¬∀ c ∈ g, Text.isBlank c) (h : ∀ es, c = '*' → g ++ rest = '/' :: es → False) :
    ∀ es, c = '*' → g' ++ rest' = '/' :: es → False := by
  rintro es rfl he
  obtain ⟨e, g, rfl⟩ : ∃ e es, g = e :: es :=
    List.exists_cons_of_ne_nil fun hnil => hg (by simp [hnil])
  obtain ⟨e', g'', rfl, he'⟩ := hs.of_cons_cons hg
  obtain rfl : e' = '/' := (List.cons.inj he).1
  obtain rfl := he'.resolve_right fun h => absurd h.2 (by decide)
  exact h _ rfl rfl

namespace IsGap

theorem nil : IsGap found none [] found := by
  intro b behind g' rest p hs _ hr _
  obtain rfl : g' = [] := by cases hs <;> rfl
  exact ⟨found, p, Lexes.gap_of_not_startsGap hr, fun _ => rfl⟩

theorem blank_cons (hc : Text.isBlank c) (hg : IsGap true none g blank) :
    IsGap found none (c :: g) blank := by
  intro b behind g' rest p hs hb hr start
  cases hs
  case keep hs =>
    rw [List.cons_append, Option.map_none, gap_blank_cons hc]
    exact hg hs (by simp) hr start
  case blank hs =>
    rw [List.cons_append, Option.map_none, gap_blank_cons isBlank_blank]
    exact hg hs (fun _ _ => rfl) hr start
  case skip hs =>
    obtain rfl := hb rfl rfl
    exact hg hs (fun _ _ => rfl) hr start
  case last hrest _ =>
    exact ⟨found, _, Lexes.gap_of_not_startsGap hr, fun h => absurd hrest h⟩

theorem open_comment (hg : IsGap found (some q) g blank) :
    IsGap found none ('/' :: '*' :: g) blank := by
  intro b behind g' rest p hs hb hr start
  obtain ⟨es, rfl, hes⟩ := hs.of_cons (by decide)
  obtain ⟨fs, rfl, hfs⟩ := hes.of_cons (by decide)
  exact hg hfs (by simp) hr p

theorem close_comment (hg : IsGap found none g blank) :
    IsGap found (some q) ('*' :: '/' :: g) blank := by
  intro b behind g' rest p hs hb hr start
  obtain ⟨es, rfl, hes⟩ := hs.of_cons (by decide)
  obtain ⟨fs, rfl, hfs⟩ := hes.of_cons (by decide)
  simp only [Option.map_some, List.cons_append, gap]
  exact hg hfs (by simp) hr start

-- The comment goes on, since its end is still to come.
theorem comment_cons (hblank : ¬∀ c ∈ g, Text.isBlank c)
    (hend : ∀ es, c = '*' → g ++ rest = '/' :: es → False) (hg : IsGap found (some q) g blank) :
    IsGap found (some q) (c :: g) blank := by
  intro b behind g' rest p hs hb hr start
  cases hs
  case keep hs =>
    rw [List.cons_append, Option.map_some,
      gap.eq_5 _ _ _ _ _ (not_endsComment_squeezed hs hblank hend)]
    exact hg hs (by simp) hr start
  case blank hs =>
    rw [List.cons_append, Option.map_some, gap.eq_5 _ _ _ _ _ (by rintro _ h; cases h)]
    exact hg hs (by simp) hr start
  case skip hs => exact hg hs (by simp) hr start
  case last hrest hall => exact absurd (List.forall_mem_cons.mp hall).2 hblank

end IsGap

theorem exists_isGap (h : gap found comment p cs = ⟨.ok blank, rest, q⟩) :
    ∃ g, cs = g ++ rest ∧ (comment.isSome → ¬∀ c ∈ g, Text.isBlank c) ∧
      IsGap found comment g blank := by
  fun_induction gap found comment p cs
  case case1 ih =>
    obtain ⟨g, rfl, -, hg⟩ := ih h
    exact ⟨'/' :: '*' :: g, rfl, by simp, hg.open_comment⟩
  case case2 c cs _ hc ih =>
    obtain ⟨g, rfl, -, hg⟩ := ih h
    exact ⟨c :: g, rfl, by simp, hg.blank_cons hc⟩
  case case3 | case4 =>
    obtain ⟨hb, rfl, -⟩ := Gap.mk.inj h
    obtain rfl := Except.ok.inj hb
    exact ⟨[], rfl, by simp, IsGap.nil⟩
  case case5 ih =>
    obtain ⟨g, rfl, -, hg⟩ := ih h
    refine ⟨'*' :: '/' :: g, rfl, fun _ hall => ?_, hg.close_comment⟩
    exact absurd (hall '*' (by simp)) (by decide)
  case case6 c cs hend ih =>
    obtain ⟨g, rfl, hg', hg⟩ := ih h
    have hblank := hg' rfl
    exact ⟨c :: g, rfl, fun _ hall => hblank (List.forall_mem_cons.mp hall).2,
      hg.comment_cons hblank hend⟩
  case case7 => cases h

/-! ### What is behind a token -/

theorem ne_of_isBlank (hc : Text.isBlank c) (hd : Text.isBlank d = false) : c ≠ d := by
  rintro rfl
  cases hd.symm.trans hc

theorem not_isDigit_of_isBlank (hc : Text.isBlank c) : c.isDigit = false := by
  refine eq_false_of_ne_true fun h => ?_
  have := Text.of_isAscii (p := fun c => !(c.isDigit && Text.isBlank c)) (by decide)
    (Text.isAscii_of_isDigit h)
  simp [h, hc] at this

-- Of white space, the usual blank or the end of the text may stand in its place.
theorem LooksLike.blank_cons (hc : Text.isBlank c) (hd : Stops ds) :
    LooksLike multibyte (c :: cs) ds := by
  have hne {d : Char} (hd : Text.isBlank d = false) : c ≠ d := ne_of_isBlank hc hd
  obtain ⟨hd, hf, hs, he, hesc, hn, hi, hm, hh⟩ := @LooksLike.not_starts_of_stops multibyte _ hd
  have hdigit := not_isDigit_of_isBlank hc
  have hdot : c ≠ '.' := hne (by decide)
  have hplus : c ≠ '+' := hne (by decide)
  have hminus : c ≠ '-' := hne (by decide)
  have hlower : c ≠ 'e' := hne (by decide)
  have hupper : c ≠ 'E' := hne (by decide)
  constructor
  case blank => exact fun _ => by simp [startsBlank, hc]
  case head =>
    have hblank : ∀ d ∈ ['(', '%', '*'], Text.isBlank d = false := by decide
    exact fun d hd => (hh d hd).trans (beq_eq_false_iff_ne.mpr (by simpa using hne (hblank d hd))).symm
  case escape => rw [hesc, startsEscape_cons (hne (by decide))]
  all_goals simp_all [startsDigit_cons, startsFraction, startsSigned_cons, startsExponent]

-- A text with less white space begins with the same character, or with no more than a blank
-- instead of white space.
inductive SameHead : List Char → List Char → Prop
  | nil : SameHead [] []
  | cons {c : Char} {cs ds : List Char} : SameHead (c :: cs) (c :: ds)
  | blank {c : Char} {cs ds : List Char} (hc : Text.isBlank c) (hd : Stops ds) :
    SameHead (c :: cs) ds

theorem sameHead_of_squeezed (h : Squeezed rest false cs ds) : SameHead cs ds := by
  cases h
  case nil => exact .nil
  case keep => exact .cons
  case blank hc _ => exact .blank hc (by simp [Stops, stops])
  case last hb =>
    cases cs
    case nil => exact .nil
    case cons c cs => exact .blank (hb c List.mem_cons_self) stops_nil

namespace SameHead

theorem startsDigit (h : SameHead cs ds) : startsDigit ds = startsDigit cs := by
  cases h
  case nil => rfl
  case cons => rfl
  case blank hc hd => exact (@LooksLike.blank_cons false _ _ _ hc hd).digit

theorem startsEscape (h : SameHead cs ds) (hcs : cs.head? = some '\\' → startsEscape cs)
    (hds : ds.head? = some '\\' → startsEscape ds) : startsEscape ds = startsEscape cs := by
  cases h
  case nil => rfl
  case cons c cs ds =>
    by_cases hc : c = '\\'
    · subst hc
      rw [hcs rfl, hds rfl]
    · rw [startsEscape_cons hc, startsEscape_cons hc]
  case blank hc hd => exact (@LooksLike.blank_cons false _ _ _ hc hd).escape

-- Behind a hyphen.
theorem startsIdentifier (h : SameHead cs ds)
    (he : Lexing.startsEscape ds = Lexing.startsEscape cs)
    (hi : startsIdentifier multibyte ('-' :: ds)) : startsIdentifier multibyte ('-' :: cs) := by
  cases h
  case nil => exact hi
  case cons => rwa [startsIdentifier_hyphen, he, ← startsIdentifier_hyphen] at hi
  case blank hc hd => exact (LooksLike.blank_cons hc hd).hyphened hi

end SameHead

theorem startsSigned_squeezed (h : Squeezed rest false cs ds) :
    startsSigned ds = startsSigned cs := by
  cases h
  case nil => rfl
  case keep c cs ds h =>
    rw [startsSigned_cons, startsSigned_cons, (sameHead_of_squeezed h).startsDigit]
  case blank hc h => exact (@LooksLike.blank_cons false _ _ _ hc (by simp [Stops, stops])).signed
  case last hb =>
    cases cs
    case nil => rfl
    case cons c cs =>
      have hlike : LooksLike false (c :: cs) [] := .blank_cons (hb c List.mem_cons_self) stops_nil
      exact hlike.signed

-- The text behind a token goes on with the same, if both texts are well-formed.
theorem looksLike_squeezed (h : Squeezed rest false cs ds)
    (hcs : Cursor.isWellFormed (Cursor.lex multibyte ⟨cs, p⟩).1)
    (hds : Cursor.isWellFormed (Cursor.lex multibyte ⟨ds, q⟩).1) :
    LooksLike multibyte cs ds := by
  have hhead := sameHead_of_squeezed h
  have hescape := hhead.startsEscape
    (fun hb => by
      obtain ⟨cs, rfl⟩ := List.head?_eq_some_iff.mp hb
      exact Cursor.startsEscape_of_isWellFormed hcs)
    (fun hb => by
      obtain ⟨ds, rfl⟩ := List.head?_eq_some_iff.mp hb
      exact Cursor.startsEscape_of_isWellFormed hds)
  cases h
  case nil => exact .refl
  case keep c cs ds h =>
    have hbehind := sameHead_of_squeezed h
    constructor
    case blank => exact id
    case digit => rfl
    case fraction => simp only [startsFraction, hbehind.startsDigit]
    case signed => simp only [startsSigned_cons, hbehind.startsDigit]
    case exponent => simp only [startsExponent, startsSigned_squeezed h]
    case escape => exact hescape
    case name => simp only [startsName, hescape, imp_self]
    case identifier =>
      by_cases hc : c = '-'
      case neg => simp only [startsIdentifier_cons hc, hescape, imp_self]
      case pos =>
        subst hc
        refine hbehind.startsIdentifier (hbehind.startsEscape (fun hb => ?_) fun hb => ?_)
        · obtain ⟨cs, rfl⟩ := List.head?_eq_some_iff.mp hb
          exact Cursor.startsEscape_of_isWellFormed_hyphen hcs
        · obtain ⟨ds, rfl⟩ := List.head?_eq_some_iff.mp hb
          exact Cursor.startsEscape_of_isWellFormed_hyphen hds
    case hyphened => simp only [startsIdentifier_hyphen, hescape, imp_self]
    case head => exact fun _ _ => rfl
  case blank c cs ds hc h => exact .blank_cons hc (by simp [Stops, stops])
  case last hb =>
    cases cs
    case nil => exact .refl
    case cons c cs => exact .blank_cons (hb c List.mem_cons_self) stops_nil

end Stylesheet.Lexing
