import Stylesheet.Proofs.Token.Progress
import Stylesheet.Proofs.Token.WellFormed
/-!
Comments between tokens. A comment that is put where a token begins or ends changes no token: each
one is read in front of a slash as it is at the end of the text, and white space goes on behind a
comment. Main statement: `Cursor.tokens_comment`.
-/

namespace Stylesheet

namespace Lexing

variable {multibyte blank found : Bool} {comment : Option Position} {p q : Position}
  {cs ds es rest k g : List Char}

/-! ### Gaps -/

-- A gap is one also by itself.
theorem exists_gap (h : gap blank comment p cs = ⟨.ok found, rest, q⟩) :
    ∃ g, cs = g ++ rest ∧ gap blank comment p g = ⟨.ok found, [], q⟩ := by
  fun_induction gap blank comment p cs
  case case1 ih =>
    obtain ⟨g, rfl, hg⟩ := ih h
    exact ⟨'/' :: '*' :: g, rfl, hg⟩
  case case2 c cs hs hb ih =>
    obtain ⟨g, rfl, hg⟩ := ih h
    refine ⟨c :: g, rfl, ?_⟩
    rw [gap, if_pos hb, hg]
    rintro es rfl
    cases not_isBlank_slash.symm.trans hb
  case case3 =>
    cases h
    exact ⟨[], rfl, rfl⟩
  case case4 =>
    cases h
    exact ⟨[], rfl, rfl⟩
  case case5 ih =>
    obtain ⟨g, rfl, hg⟩ := ih h
    exact ⟨'*' :: '/' :: g, rfl, hg⟩
  case case6 c cs hs ih =>
    obtain ⟨g, rfl, hg⟩ := ih h
    refine ⟨c :: g, rfl, ?_⟩
    rw [gap, hg]
    rintro es rfl rfl
    exact hs _ rfl rfl
  case case7 => cases h

-- A comment is passed over.
theorem gap_content {start : Position} {content : List Char} (h : ¬['*', '/'] <:+: content) :
    gap blank (some start) p (content ++ '*' :: '/' :: ds) =
      gap blank none (p.after (content ++ ['*', '/'])) ds := by
  induction content generalizing p
  case nil => rfl
  case cons c content ih =>
    rw [List.infix_cons_iff, not_or] at h
    rw [List.cons_append, gap, ih h.2]
    · rfl
    · rintro es rfl he
      cases content
      case nil => cases he
      case cons d content =>
        obtain ⟨rfl, -⟩ := List.cons.inj he
        exact h.1 ⟨content, rfl⟩

theorem gap_comment (h : IsComment k) :
    gap blank none p (k ++ ds) = gap blank none (p.after k) ds := by
  obtain ⟨content, hcontent, rfl⟩ := h
  simp only [List.cons_append, List.append_assoc, List.nil_append]
  rw [gap, gap_content hcontent]
  rfl

theorem gap_comments (h : AreComments cs) :
    gap blank none p (cs ++ ds) = gap blank none (p.after cs) ds := by
  obtain ⟨comments, hcomments, rfl⟩ := h
  induction comments generalizing p
  case nil => rfl
  case cons comment comments ih =>
    obtain ⟨hcomment, hbehind⟩ := List.forall_mem_cons.mp hcomments
    rw [List.flatten_cons, List.append_assoc, gap_comment hcomment, ih hbehind,
      Position.after_append]

theorem gap_of_areComments (h : AreComments cs) (hs : startsGap ds = false) :
    gap false none p (cs ++ ds) = ⟨.ok false, ds, p.after cs⟩ := by
  rw [gap_comments h, Lexes.gap_of_not_startsGap hs]

theorem AreComments.exists_slash (h : AreComments k) (hn : k ≠ []) : ∃ es, k = '/' :: es := by
  obtain ⟨comments, hcomments, rfl⟩ := h
  cases comments
  case nil => exact absurd rfl hn
  case cons comment comments =>
    obtain ⟨content, -, rfl⟩ := hcomments comment List.mem_cons_self
    exact ⟨_, rfl⟩

theorem IsComment.ne_nil (h : IsComment k) : k ≠ [] := by
  obtain ⟨content, -, rfl⟩ := h
  exact List.cons_ne_nil _ _

theorem AreComments.append_comment (h : AreComments cs) (hk : IsComment k) :
    AreComments (cs ++ k) := by
  obtain ⟨comments, hcomments, rfl⟩ := h
  refine ⟨comments ++ [k], ?_, by simp⟩
  simpa [or_imp, forall_and] using ⟨hcomments, hk⟩

theorem unifyLineEnds_comment {content : List Char} :
    Text.unifyLineEnds ('/' :: '*' :: (content ++ '*' :: '/' :: ds)) =
      '/' :: '*' :: (Text.unifyLineEnds content ++ '*' :: '/' :: Text.unifyLineEnds ds) := by
  have hslash (cs : List Char) : Text.unifyLineEnds ('/' :: cs) = '/' :: Text.unifyLineEnds cs :=
    Text.unifyLineEnds_cons (by decide) (by decide)
  have hstar (cs : List Char) : Text.unifyLineEnds ('*' :: cs) = '*' :: Text.unifyLineEnds cs :=
    Text.unifyLineEnds_cons (by decide) (by decide)
  rw [hslash, hstar, Text.unifyLineEnds_append_of_head (by simp), hstar, hslash]

theorem IsComment.unifyLineEnds (h : IsComment k) : IsComment (Text.unifyLineEnds k) := by
  obtain ⟨content, hcontent, rfl⟩ := h
  refine ⟨Text.unifyLineEnds content, fun h => ?_, unifyLineEnds_comment⟩
  exact hcontent (Text.infix_of_unifyLineEnds (by decide) h)

theorem IsComment.unifyLineEnds_append (h : IsComment k) : Text.unifyLineEnds (cs ++ (k ++ ds)) =
    Text.unifyLineEnds cs ++ (Text.unifyLineEnds k ++ Text.unifyLineEnds ds) := by
  obtain ⟨content, -, rfl⟩ := h
  rw [Text.unifyLineEnds_append_of_head (by simp), unifyLineEnds_comment]
  simp only [List.cons_append, List.append_assoc, List.nil_append, unifyLineEnds_comment]
  rfl

-- White space, and comments.
def IsBlankGap (g : List Char) : Prop :=
  ∃ p q, gap false none p g = ⟨.ok true, [], q⟩

theorem IsBlankGap.gap (h : IsBlankGap g) (p : Position) (ds : List Char) :
    ∃ q, gap false none p (g ++ ds) = gap true none q ds := by
  obtain ⟨_, _, hg⟩ := h
  obtain ⟨q, hq⟩ := gap_ok_at p hg
  exact ⟨q, gap_gap hq⟩

/-! ### In front of a comment -/

theorem startsGap_append_of (h : startsGap cs) : startsGap (cs ++ ds) := by
  match cs with
  | [] => cases h
  | [c] =>
    have hc : c ≠ '/' := by rintro rfl; cases h
    simpa [startsGap, hc] using h
  | c :: d :: _ => by_cases hc : c = '/' <;> by_cases hd : d = '*' <;> simp_all [startsGap]

-- A slash goes on with nothing, except for a backslash that waits for its character.
theorem continuesLess_slash (h : cs ≠ ['\\']) (hm : cs ≠ ['-', '\\']) :
    ContinuesLess multibyte (cs ++ es) (cs ++ '/' :: ds) :=
  (ContinuesLess.of_append cs es).trans
    (looksLike_stop (by decide) (fun h => absurd h (by decide)) h hm).continuesLess

end Lexing

namespace Cursor

open Lexing (gap lexeme startsGap IsComment AreComments IsBlankGap Takes ContinuesLess)

variable {multibyte : Bool} {c c' c'' : Cursor} {p q : Position} {d : Char}
  {cs ds k g w front own taken : List Char} {t : Placed}

/-! ### What is found in a text -/

-- What the lexer finds in a text, wherever that stands.
def lexed (multibyte : Bool) (cs : List Char) : List Lexed :=
  (lex multibyte ⟨cs, .start⟩).1.map unplaced

theorem lexed_eq (p : Position) :
    lexed multibyte cs = (lex multibyte ⟨cs, p⟩).1.map unplaced :=
  unplaced_lex _

theorem isWellFormed_lexed (p : Position) : isWellFormed (lexed multibyte cs) =
    isWellFormed (lex multibyte ⟨cs, p⟩).1 := by
  rw [lexed_eq p, isWellFormed_unplaced]

theorem lexed_nil : lexed multibyte [] = [] := by
  rw [lexed, lex_nil, List.map_nil]

-- The same is found behind gaps that are as much white space.
theorem lexed_congr (hrest : (gap false none p cs).rest = (gap false none q ds).rest)
    (hresult : (gap false none p cs).result.toOption = (gap false none q ds).result.toOption) :
    lexed multibyte cs = lexed multibyte ds := by
  rw [lexed_eq p, lexed_eq q]
  cases hcs : gap false none p cs
  case mk result rest r =>
    cases hds : gap false none q ds
    case mk result' rest' r' =>
      rw [hcs, hds] at hrest hresult
      obtain rfl : rest = rest' := hrest
      cases result <;> cases result' <;> try cases hresult
      case error => rw [lex_of_gap_error hcs, lex_of_gap_error hds]; rfl
      case ok blank =>
        cases rest
        case nil => rw [lex_of_gap_nil hcs, lex_of_gap_nil hds, unplaced_blanks]
        case cons d rest =>
          rw [lex_of_gap_cons hcs, lex_of_gap_cons hds]
          simp only [List.map_append, List.map_cons]
          rw [@unplaced_blanks p q, @unplaced_place r r', unplaced_lex]

theorem lexed_comments (h : AreComments front) :
    lexed multibyte (front ++ ds) = lexed multibyte ds := by
  have hgap := @Lexing.gap_comments false .start _ ds h
  exact lexed_congr (congrArg _ hgap) (by rw [hgap])

theorem lexed_blank (h : IsBlankGap g) (hs : startsGap ds = false) : lexed multibyte (g ++ ds) =
    .ok ⟨.whitespace, .nowhere⟩ :: lexed multibyte ds := by
  obtain ⟨q, hgap⟩ := h.gap .start ds
  rw [Lexing.Lexes.gap_of_not_startsGap hs] at hgap
  have hscan : scan multibyte ⟨g ++ ds, .start⟩ =
      (some (.ok ⟨.whitespace, .start⟩), ⟨ds, q⟩) := by
    simp only [scan, hgap]
  rw [lexed, lex_of_scan_some hscan, List.map_cons, ← lexed_eq q]
  rfl

theorem lexed_blank_comments (h : IsBlankGap g) (hk : AreComments k) :
    lexed multibyte (g ++ (k ++ ds)) = lexed multibyte (g ++ ds) := by
  obtain ⟨q, hq⟩ := h.gap .start (k ++ ds)
  obtain ⟨q', hq'⟩ := h.gap .start ds
  obtain ⟨hrest, hresult⟩ := @Lexing.gap_at ds true none q' none (q.after k) rfl
  rw [Lexing.gap_comments hk] at hq
  rw [← hq, ← hq'] at hrest hresult
  exact lexed_congr hrest hresult

theorem lexed_lexeme {t : Token} (hf : AreComments front) (hs : startsGap (d :: (w ++ ds)) = false)
    (hl : lexeme multibyte d (w ++ ds) = ⟨.ok t, d :: w, ds⟩) :
    lexed multibyte (front ++ d :: (w ++ ds)) = .ok ⟨t, .nowhere⟩ :: lexed multibyte ds := by
  have hgap := @Lexing.gap_of_areComments .start _ _ hf hs
  rw [lexed, lex_of_lexeme hgap hl, List.map_append, List.map_cons, ← lexed_eq]
  rfl

/-! ### Tokens one after the other -/

-- A scan that finds a token: its characters, and what is in front of them.
structure Finds (multibyte : Bool) (c : Cursor) (t : Placed) (front own : List Char)
    (c' : Cursor) : Prop where
  scan_eq : c.scan multibyte = (some (.ok t), c')
  rest_eq : c.rest = front ++ (own ++ c'.rest)
  takes : Takes t.token front own c'.rest

-- Scans that find tokens, one after the other, and the text that they take.
inductive Reaches (multibyte : Bool) : Cursor → List Char → Cursor → Prop
  | refl (c : Cursor) : Reaches multibyte c [] c
  | step {c c' c'' : Cursor} {t : Placed} {front own taken : List Char}
    (h : Finds multibyte c t front own c') (hr : Reaches multibyte c' taken c'') :
    Reaches multibyte c (front ++ (own ++ taken)) c''

-- White space is taken whole, and any other token is a lexeme.
theorem Finds.blank_or_lexeme (h : Finds multibyte c t front own c') :
    t.token = .whitespace ∧ IsBlankGap own ∧ startsGap c'.rest = false ∨
      t.token.isWhitespace = false ∧ ∃ d w, own = d :: w ∧
        lexeme multibyte d (w ++ c'.rest) = ⟨.ok t.token, d :: w, c'.rest⟩ := by
  obtain ⟨hscan, hrest, htakes⟩ := h
  unfold scan at hscan
  dsimp only at hscan
  split at hscan
  case h_1 => cases hscan
  case h_2 blanks hresult =>
    obtain ⟨ht, rfl⟩ := Prod.mk.inj hscan
    obtain rfl := Except.ok.inj (Option.some.inj ht)
    obtain rfl := htakes.front_eq_nil rfl
    have hstarts := Lexing.startsGap_gap hresult
    cases hgap : gap false none c.position c.rest
    case mk result rest q =>
      rw [hgap] at hresult hrest hstarts
      obtain rfl : result = .ok true := hresult
      obtain ⟨g, hg, hblank⟩ := Lexing.exists_gap hgap
      obtain rfl : g = own := List.append_cancel_right (hg.symm.trans hrest)
      exact .inl ⟨rfl, ⟨_, _, hblank⟩, hstarts⟩
  case h_3 => cases hscan
  case h_4 d rest hresult hbehind =>
    obtain ⟨ht, rfl⟩ := Prod.mk.inj hscan
    obtain ⟨w, r, hlexeme, rfl⟩ := exists_lexeme_of_place (Option.some.inj ht)
    have ht := Lexing.not_isWhitespace_of_lexeme (congrArg _ hlexeme)
    have hstarts := htakes.startsGap_eq.trans ht
    rw [hlexeme] at hrest hstarts
    rw [hrest, Lexing.gap_of_areComments htakes.areComments hstarts] at hbehind
    obtain rfl : own = d :: w := List.append_cancel_right hbehind
    rw [hlexeme]
    exact .inr ⟨ht, d, w, rfl, hlexeme⟩

theorem Finds.isBlankGap (h : Finds multibyte c t front own c') (ht : t.token = .whitespace) :
    IsBlankGap own ∧ startsGap c'.rest = false := by
  rcases h.blank_or_lexeme with ⟨-, hown, hrest⟩ | ⟨ht', -⟩
  case inl => exact ⟨hown, hrest⟩
  case inr =>
    rw [ht] at ht'
    cases ht'

-- A token is found also in front of a text that continues it no more.
theorem Finds.lexed_eq (h : Finds multibyte c t front own c')
    (hl : ContinuesLess multibyte c'.rest ds)
    (hs : startsGap (own ++ ds) → startsGap (own ++ c'.rest))
    (hb : t.token = .whitespace → startsGap ds = false) :
    lexed multibyte (front ++ (own ++ ds)) = .ok t.unplaced :: lexed multibyte ds := by
  rw [Placed.unplaced]
  rcases h.blank_or_lexeme with ⟨ht, hblank, -⟩ | ⟨ht, d, w, rfl, hlexeme⟩
  case inl =>
    obtain rfl := h.takes.front_eq_nil (by rw [ht]; rfl)
    rw [List.nil_append, lexed_blank hblank (hb ht), ht]
  case inr =>
    have hstarts : startsGap (d :: (w ++ ds)) = false := by
      refine Bool.of_not_eq_true fun h' => ?_
      have := hs h'
      rw [h.takes.startsGap_eq, ht] at this
      cases this
    exact lexed_lexeme h.takes.areComments hstarts (Lexing.lexeme_congr hlexeme hl)

theorem Finds.lexed_rest (h : Finds multibyte c t front own c') :
    lexed multibyte c.rest = .ok t.unplaced :: lexed multibyte c'.rest := by
  rw [h.rest_eq]
  exact h.lexed_eq Lexing.LooksLike.refl.continuesLess id fun ht => (h.isBlankGap ht).2

theorem Reaches.rest_eq (h : Reaches multibyte c taken c') : c.rest = taken ++ c'.rest := by
  induction h
  case refl => rfl
  case step hfinds _ ih => rw [hfinds.rest_eq, ih, List.append_assoc, List.append_assoc]

-- Tokens are tokens also by themselves.
theorem Reaches.isWellFormed (h : Reaches multibyte c taken c') :
    isWellFormed (lexed multibyte taken) := by
  induction h
  case refl => rw [lexed_nil]; rfl
  case step c c' c'' t front own taken hfinds hreaches ih =>
    have hrest := hreaches.rest_eq
    have hl : ContinuesLess multibyte c'.rest taken := hrest ▸ .of_append taken c''.rest
    have hs {cs : List Char} (h : startsGap (cs ++ taken)) : startsGap (cs ++ c'.rest) := by
      rw [hrest, ← List.append_assoc]
      exact Lexing.startsGap_append_of h
    have hb (ht : t.token = .whitespace) : startsGap taken = false :=
      Bool.of_not_eq_true fun h => by simpa [(hfinds.isBlankGap ht).2] using @hs [] h
    rw [hfinds.lexed_eq hl hs hb, isWellFormed_cons]
    exact ⟨⟨_, rfl⟩, ih⟩

-- What was taken continues no token more in front of a slash than in front of the rest: a backslash
-- at its end, which would wait for the slash, is no token.
theorem Reaches.continuesLess (h : Reaches multibyte c taken c') (es : List Char) :
    ContinuesLess multibyte c.rest (taken ++ '/' :: es) := by
  have hwell := h.isWellFormed
  rw [isWellFormed_lexed .start] at hwell
  have hslash : taken ≠ ['\\'] := by
    rintro rfl
    cases startsEscape_of_isWellFormed hwell
  have hhyphen : taken ≠ ['-', '\\'] := by
    rintro rfl
    cases startsEscape_of_isWellFormed_hyphen hwell
  exact h.rest_eq ▸ Lexing.continuesLess_slash hslash hhyphen

theorem Reaches.startsGap_of_slash {es : List Char} (h : Reaches multibyte c taken c')
    (cs : List Char) (hn : cs ++ taken ≠ []) (hs : startsGap (cs ++ (taken ++ '/' :: es))) :
    startsGap (cs ++ c.rest) := by
  rw [← List.append_assoc, Lexing.startsGap_append_cons hn (by decide)] at hs
  rw [h.rest_eq, ← List.append_assoc]
  exact Lexing.startsGap_append_of hs

-- Behind tokens, more comments in front of the rest change none of them.
theorem Reaches.lexed_comments (h : Reaches multibyte c taken c') (hf : AreComments front)
    (hrest : c'.rest = front ++ ds) (hk : AreComments k) (hn : k ≠ []) :
    lexed multibyte (taken ++ (k ++ ds)) = lexed multibyte c.rest := by
  induction h
  case refl => rw [hrest, List.nil_append, Cursor.lexed_comments hk, Cursor.lexed_comments hf]
  case step c c' c'' t before own taken hfinds hreaches ih =>
    rw [List.append_assoc, List.append_assoc]
    by_cases hb : t.token = .whitespace ∧ taken = []
    case pos =>
      obtain ⟨ht, rfl⟩ := hb
      obtain rfl := hfinds.takes.front_eq_nil (by rw [ht]; rfl)
      have hblank := (hfinds.isBlankGap ht).1
      simp only [hfinds.rest_eq, hreaches.rest_eq, hrest, List.nil_append]
      rw [lexed_blank_comments hblank hk, lexed_blank_comments hblank hf]
    case neg =>
      obtain ⟨es, rfl⟩ := hk.exists_slash hn
      have hl := hreaches.continuesLess (es ++ ds)
      have hown := List.append_ne_nil_of_left_ne_nil hfinds.takes.own_ne_nil taken
      have hblank (ht : t.token = .whitespace) : startsGap (taken ++ '/' :: (es ++ ds)) = false :=
        Bool.of_not_eq_true fun h => by
          simpa [(hfinds.isBlankGap ht).2] using
            hreaches.startsGap_of_slash [] (fun hnil => hb ⟨ht, hnil⟩) h
      have hlexed := hfinds.lexed_eq hl (hreaches.startsGap_of_slash own hown) hblank
      rw [List.cons_append, hlexed, hfinds.lexed_rest, ← ih hrest]
      rfl

theorem areComments_of_scan_none (h : c.scan multibyte = (none, c')) : AreComments c.rest := by
  unfold scan at h
  dsimp only at h
  split at h
  case h_3 hresult hrest =>
    obtain ⟨taken, htaken, -, hcomments⟩ := Lexing.areComments_gap hresult
    rw [htaken, hrest, List.append_nil]
    exact hcomments
  all_goals cases h

-- All the tokens of a well-formed text are found one after the other, and comments are left.
theorem exists_reaches (h : isWellFormed (c.lex multibyte).1) : ∃ taken c',
    Reaches multibyte c taken c' ∧ AreComments c'.rest := by
  induction hn : c.rest.length using Nat.strongRecOn generalizing c
  case ind n ih =>
    cases hscan : c.scan multibyte
    case mk result c' =>
      cases result
      case none => exact ⟨[], c, .refl c, areComments_of_scan_none hscan⟩
      case some result =>
        rw [lex_of_scan_some hscan, isWellFormed_cons] at h
        obtain ⟨⟨t, rfl⟩, hbehind⟩ := h
        obtain ⟨front, own, hrest, htakes, -⟩ := exists_takes_of_scan_ok hscan
        obtain ⟨taken, c'', hreaches, hcomments⟩ := ih _ (hn ▸ scan_length_lt hscan) hbehind rfl
        exact ⟨_, c'', .step ⟨hscan, hrest, htakes⟩ hreaches, hcomments⟩

/-! ### The places for a comment -/

theorem Reaches.snoc (h : Reaches multibyte c taken c') (hf : Finds multibyte c' t front own c'') :
    Reaches multibyte c (taken ++ (front ++ own)) c'' := by
  induction h
  case refl => simpa using Reaches.step hf (.refl c'')
  case step hfinds _ ih => simpa using Reaches.step hfinds (ih hf)

-- A text is cut at its beginning or end, or where one of its tokens begins or ends.
inductive IsPlace (multibyte : Bool) (c : Cursor) : List Char → List Char → Prop
  | beginning : IsPlace multibyte c [] c.rest
  | ending : IsPlace multibyte c c.rest []
  | front {c' c'' : Cursor} {t : Placed} {front own taken : List Char}
    (hr : Reaches multibyte c taken c') (h : Finds multibyte c' t front own c'') :
    IsPlace multibyte c (taken ++ front) (own ++ c''.rest)
  | back {c' c'' : Cursor} {t : Placed} {front own taken : List Char}
    (hr : Reaches multibyte c taken c') (h : Finds multibyte c' t front own c'') :
    IsPlace multibyte c (taken ++ (front ++ own)) c''.rest

-- Between a place and the token in front of it there are at most comments.
theorem IsPlace.exists_reaches (hw : Cursor.isWellFormed (c.lex multibyte).1)
    (h : IsPlace multibyte c cs ds) : ∃ taken c' front, Reaches multibyte c taken c' ∧
      AreComments front ∧ c'.rest = front ++ ds ∧ cs = taken ++ front := by
  cases h
  case beginning => exact ⟨[], c, [], .refl c, Lexing.areComments_nil, rfl, rfl⟩
  case ending =>
    obtain ⟨taken, c', hreaches, hcomments⟩ := Cursor.exists_reaches hw
    exact ⟨taken, c', c'.rest, hreaches, hcomments, (List.append_nil _).symm, hreaches.rest_eq⟩
  case front hreaches hfinds =>
    exact ⟨_, _, _, hreaches, hfinds.takes.areComments, hfinds.rest_eq, rfl⟩
  case back hreaches hfinds =>
    exact ⟨_, _, [], hreaches.snoc hfinds, Lexing.areComments_nil, rfl, (List.append_nil _).symm⟩

theorem IsPlace.lexed_comment (hw : Cursor.isWellFormed (c.lex multibyte).1)
    (h : IsPlace multibyte c cs ds) (hk : IsComment k) :
    lexed multibyte (cs ++ (k ++ ds)) = lexed multibyte c.rest := by
  obtain ⟨taken, c', front, hreaches, hfront, hrest, rfl⟩ := h.exists_reaches hw
  have hn : front ++ k ≠ [] := List.append_ne_nil_of_right_ne_nil front hk.ne_nil
  rw [← hreaches.lexed_comments hfront hrest (hfront.append_comment hk) hn]
  simp only [List.append_assoc]

/-- A comment may stand at the beginning and the end of a text, and wherever one of its tokens begins
or ends: the tokens stay what they are, and none is malformed. -/
theorem tokens_comment {before comment behind : String} (hk : IsComment comment.toList)
    (hw : isWellFormed ((ofText (before ++ behind)).lex multibyte).1)
    (hp : IsPlace multibyte (ofText (before ++ behind)) (Text.unifyLineEnds before.toList)
      (Text.unifyLineEnds behind.toList)) :
    isWellFormed ((ofText (before ++ comment ++ behind)).lex multibyte).1 ∧
      tokens ((ofText (before ++ comment ++ behind)).lex multibyte).1 =
        tokens ((ofText (before ++ behind)).lex multibyte).1 := by
  have hlexed := hp.lexed_comment hw hk.unifyLineEnds
  rw [← hk.unifyLineEnds_append] at hlexed
  have htext : (before ++ comment ++ behind).toList =
      before.toList ++ (comment.toList ++ behind.toList) := by
    simp only [String.toList_append, List.append_assoc]
  have hsame : ((ofText (before ++ comment ++ behind)).lex multibyte).1.map unplaced =
      ((ofText (before ++ behind)).lex multibyte).1.map unplaced := by
    rw [ofText, htext]
    exact hlexed
  constructor
  · rw [← isWellFormed_unplaced, hsame, isWellFormed_unplaced]
    exact hw
  · rw [← tokens_unplaced, hsame, tokens_unplaced]

-- Between two tokens, behind a slash that would begin a comment if a star followed it.
theorem tokens_comment_behind_slash :
    IsComment "/*\r/*/".toList ∧ isWellFormed ((ofText ("a/" ++ "b")).lex true).1 ∧
      IsPlace true (ofText ("a/" ++ "b")) (Text.unifyLineEnds "a/".toList)
        (Text.unifyLineEnds "b".toList) ∧
      isWellFormed ((ofText ("a/" ++ "/*\r/*/" ++ "b")).lex true).1 ∧
      tokens ((ofText ("a/" ++ "/*\r/*/" ++ "b")).lex true).1 =
        tokens ((ofText ("a/" ++ "b")).lex true).1 := by
  have hk : IsComment "/*\r/*/".toList := ⟨['\r', '/'], by decide, by decide⟩
  have hname : Finds true (ofText ("a/" ++ "b")) ⟨.identifier "a", ⟨1, 1⟩⟩ [] ['a']
      ⟨['/', 'b'], ⟨1, 2⟩⟩ :=
    ⟨rfl, rfl, by decide, Lexing.areComments_nil, rfl, fun _ => rfl⟩
  have hslash : Finds true ⟨['/', 'b'], ⟨1, 2⟩⟩ ⟨.slash, ⟨1, 2⟩⟩ [] ['/'] ⟨['b'], ⟨1, 3⟩⟩ :=
    ⟨rfl, rfl, by decide, Lexing.areComments_nil, rfl, fun _ => rfl⟩
  have hlast : scan true ⟨['b'], ⟨1, 3⟩⟩ =
      (some (.ok ⟨.identifier "b", ⟨1, 3⟩⟩), ⟨[], ⟨1, 4⟩⟩) := rfl
  have hw : isWellFormed ((ofText ("a/" ++ "b")).lex true).1 := by
    rw [lex_of_scan_some hname.scan_eq, lex_of_scan_some hslash.scan_eq, lex_of_scan_some hlast,
      lex_nil]
    rfl
  have hp : IsPlace true (ofText ("a/" ++ "b")) (Text.unifyLineEnds "a/".toList)
      (Text.unifyLineEnds "b".toList) := .back (.step hname (.refl _)) hslash
  exact ⟨hk, hw, hp, tokens_comment hk hw hp⟩

end Cursor
end Stylesheet
