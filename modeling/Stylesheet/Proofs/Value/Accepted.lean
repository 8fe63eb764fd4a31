import Mathlib.Data.List.Chain
import Stylesheet.Proofs.Token.Parens
import Stylesheet.Proofs.Value.Faithful
/-!
Which runs of tokens are read as values: those that are not white space alone, whose parentheses are
balanced, in which no token stands that ends a declaration, and in which every comma and slash has a
value on both sides, outside all parentheses and in each pair of them. The end of the text is no
token, so no run holds it. Main statement: `Value.exists_ofTokens_iff`.
-/

namespace Stylesheet

namespace Token

variable {t : Token} {ts : List Token}

-- The tokens that values are divided at.
def separates : Token → Bool
  | comma | slash => true
  | _ => false

-- The tokens that stand in no value.
def isBarred : Token → Bool
  | atKeyword _ | semicolon | openBrace | closeBrace => true
  | _ => false

-- A row in which no separator is first, last or next to another.
structure Divided (ts : List Token) : Prop where
  head : ∀ t ∈ ts.head?, t.separates = false
  last : ∀ t ∈ ts.getLast?, t.separates = false
  next : ts.IsChain fun t u => t.separates = false ∨ u.separates = false

-- What is not white space outside parentheses.
def outer (ts : List Token) : List Token :=
  (outside 0 ts).filter (!·.isWhitespace)

theorem separates_of_opensParen (h : t.opensParen) : t.separates = false := by
  cases t <;> first | rfl | cases h

theorem outer_token (ho : t.opensParen = false) (ts : List Token) :
    outer (t :: ts) = [t].filter (!·.isWhitespace) ++ outer ts := by
  rw [outer, outside_token ho, outer, ← List.filter_append]
  rfl

theorem outer_parens {opener : Token} {inner : List Token} (ho : opener.opensParen)
    (hi : Balanced inner) (ts : List Token) :
    outer (opener :: (inner ++ .closeParen :: ts)) = opener :: outer ts := by
  have how := isWhitespace_of_opensParen ho
  rw [outer, outside_parens ho hi, List.filter_cons_of_pos (by simp [how])]
  rfl

theorem map_separates_parens {opener : Token} {inner : List Token} (ho : opener.opensParen)
    (hi : Balanced inner) (ts : List Token) :
    (outer (opener :: (inner ++ .closeParen :: ts))).map separates =
      false :: (outer ts).map separates := by
  rw [outer_parens ho hi, List.map_cons, separates_of_opensParen ho]

theorem outer_ne_nil_iff (h : Balanced ts) : outer ts ≠ [] ↔ ∃ t ∈ ts, t ≠ .whitespace := by
  induction h
  case nil => simp [outer, outside]
  case token t _ ho _ _ ih =>
    rw [outer_token ho, List.exists_mem_cons_iff, ← ih, ← isWhitespace_eq_false_iff]
    cases hw : t.isWhitespace <;> simp [hw]
  case parens opener inner ts ho hi _ _ _ =>
    rw [outer_parens ho hi]
    refine iff_of_true (List.cons_ne_nil _ _) ⟨opener, List.mem_cons_self, ?_⟩
    rintro rfl
    cases ho

end Token

/-! ### Separators -/

-- Whether there is a value in front of each separator and behind it, and at the end. `after` says
-- whether there is one in front.
def alternates (after : Bool) : List Bool → Bool
  | [] => after
  | true :: rest => after && alternates false rest
  | false :: rest => alternates true rest

theorem alternates_append (after : Bool) (front back : List Bool) :
    alternates after (front ++ true :: back) =
      (alternates after front && alternates false back) := by
  induction front generalizing after
  case nil => rfl
  case cons separates front ih => cases separates <;> simp [alternates, ih, Bool.and_assoc]

theorem alternates_iff {after : Bool} {ts : List Token} :
    alternates after (ts.map Token.separates) ↔ (after ∨ ts ≠ []) ∧
      (∀ t ∈ ts.getLast?, t.separates = false) ∧ (after ∨ ∀ t ∈ ts.head?, t.separates = false) ∧
      ts.IsChain fun t u => t.separates = false ∨ u.separates = false := by
  induction ts generalizing after
  case nil => simp [alternates]
  case cons t ts ih =>
    have hlast : (∀ u ∈ (t :: ts).getLast?, u.separates = false) ↔
        (ts = [] → t.separates = false) ∧ ∀ u ∈ ts.getLast?, u.separates = false := by
      cases ts <;> simp [List.getLast?_cons_cons]
    rw [List.map_cons, hlast, List.isChain_cons]
    cases ht : t.separates <;> simp [alternates, ih, ht, and_assoc, and_left_comm]

theorem alternates_iff_divided {ts : List Token} :
    alternates false (ts.map Token.separates) ↔ ts ≠ [] ∧ Token.Divided ts := by
  rw [alternates_iff]
  constructor
  case mp =>
    rintro ⟨hn, hlast, hhead, hnext⟩
    exact ⟨hn.resolve_left nofun, hhead.resolve_left nofun, hlast, hnext⟩
  case mpr =>
    rintro ⟨hn, h⟩
    exact ⟨.inr hn, h.last, .inr h.head, h.next⟩

namespace Value

def Part.separates : Part → Bool
  | value _ => false
  | slash _ => true

def Item.separates : Item → Bool
  | part p => p.separates
  | comma _ => true

variable {current : Option Value} {part parts : List Part} {items : List Item}

theorem exists_map_iff {α β : Type} {result : Except Diagnostic α} {f : α → β} :
    (∃ b, result.map f = .ok b) ↔ ∃ a, result = .ok a := by
  cases result <;> simp [Except.map]

theorem exists_words_iff : (∃ vs, words current parts = .ok vs) ↔
    parts = [] ∨ alternates current.isSome (parts.map Part.separates) := by
  fun_induction words current parts
  case case1 => simp
  case case2 v rest ih =>
    rw [exists_map_iff, ih]
    cases rest <;> simp [alternates, Part.separates]
  case case3 => simp [alternates, Part.separates]
  case case4 w p v rest ih =>
    rw [ih]
    cases rest <;> simp [alternates, Part.separates]
  case case5 => simp [alternates, Part.separates]
  case case6 => simp [alternates, Part.separates]

theorem exists_group_iff : (∃ v, group part = .ok v) ↔
    part = [] ∨ alternates false (part.map Part.separates) := by
  rw [group, exists_map_iff, exists_words_iff]
  rfl

theorem exists_mapM_iff {α β : Type} {f : α → Except Diagnostic β} {xs : List α} :
    (∃ ys, xs.mapM f = .ok ys) ↔ ∀ x ∈ xs, ∃ y, f x = .ok y := by
  induction xs
  case nil => simp [pure, Except.pure]
  case cons x xs ih =>
    rw [List.forall_mem_cons, ← ih, List.mapM_cons]
    cases f x
    case error => simp [bind, Except.bind]
    case ok => cases xs.mapM f <;> simp [bind, Except.bind, pure, Except.pure]

theorem exists_splitAtCommas_iff {last : Position} :
    (∃ parts, splitAtCommas last part items = .ok parts ∧ ∀ p ∈ parts, ∃ v, group p = .ok v) ↔
      alternates false (part.map Part.separates ++ items.map Item.separates) := by
  fun_induction splitAtCommas last part items
  case case1 h => simp [List.isEmpty_iff.mp h, alternates]
  case case2 h =>
    simp only [Bool.not_eq_true, List.isEmpty_eq_false_iff] at h
    simp [exists_group_iff, h]
  case case3 h => simp [List.isEmpty_iff.mp h, alternates, Item.separates]
  case case4 part p rest h ih =>
    simp only [Bool.not_eq_true, List.isEmpty_eq_false_iff] at h
    have hgroup : (∃ v, group part = .ok v) ↔ alternates false (part.map Part.separates) := by
      simp [exists_group_iff, h]
    have hcomma : (Item.comma p).separates = true := rfl
    rw [List.map_nil, List.nil_append] at ih
    rw [List.map_cons, hcomma, alternates_append, Bool.and_eq_true, ← hgroup, ← ih]
    cases splitAtCommas p [] rest <;> simp [Except.map]
  case case5 p _ ih =>
    have hpart : (Item.part p).separates = p.separates := rfl
    simpa [hpart] using ih

theorem exists_ofItems_iff {finish : Position} :
    (∃ v, ofItems items finish = .ok v) ↔ alternates false (items.map Item.separates) := by
  have hsplit := @exists_splitAtCommas_iff [] items finish
  rw [List.map_nil, List.nil_append] at hsplit
  rw [ofItems_eq, ← hsplit]
  cases splitAtCommas finish [] items
  case error => simp [Except.bind]
  case ok parts => simp [Except.bind, exists_map_iff, exists_mapM_iff]

/-! ### Rows -/

open Token (Balanced Divided outer)

variable {opener : Token} {front inner back row : List Token} {ts : List Placed}

-- Rows that are read to items, and what is in their parentheses to arguments.
inductive IsRow : List Token → Prop
  | nil : IsRow []
  | token {t : Token} {row : List Token} (ho : t.opensParen = false) (hc : t ≠ .closeParen)
    (hf : t.isBarred = false) (h : IsRow row) : IsRow (t :: row)
  | parens {opener : Token} {inner row : List Token} (ho : opener.opensParen) (hi : IsRow inner)
    (hd : (∃ t ∈ inner, t ≠ .whitespace) → Divided (outer inner)) (h : IsRow row) :
    IsRow (opener :: (inner ++ .closeParen :: row))

theorem IsRow.balanced (h : IsRow row) : Balanced row := by
  induction h
  case nil => exact .nil
  case token ho hc _ _ ih => exact .token ho hc ih
  case parens ho _ _ _ ihi ih => exact .parens ho ihi ih

theorem exists_leafItem_iff {t : Placed} : (∃ item, leafItem t = .ok item) ↔
    t.token.opensParen = false ∧ t.token ≠ .closeParen ∧ t.token.isBarred = false := by
  obtain ⟨token, p⟩ := t
  cases token <;> simp [leafItem, Token.opensParen, Token.isBarred]

-- The items of a row are divided as its tokens are.
theorem separates_leafItem {t : Placed} {item : Option Item} (h : leafItem t = .ok item) :
    item.toList.map Item.separates =
      ([t.token].filter (!·.isWhitespace)).map Token.separates := by
  obtain ⟨token, p⟩ := t
  cases token <;> cases h <;> rfl

theorem isRow_of_nestedItems {ns : List Nested} (hn : Nests ns row)
    (h : nestedItems ns = .ok items) :
    IsRow row ∧ items.map Item.separates = (outer row).map Token.separates := by
  induction hn generalizing items
  case nil =>
    cases h
    exact ⟨.nil, rfl⟩
  case leaf ho _ ih =>
    obtain ⟨item, rest, hitem, hrest, rfl⟩ := nestedItems_cons_eq_ok_iff.mp h
    rw [nestedItem] at hitem
    obtain ⟨-, hc, hf⟩ := exists_leafItem_iff.mp ⟨item, hitem⟩
    obtain ⟨hrow, hseparates⟩ := ih hrest
    refine ⟨.token ho hc hf hrow, ?_⟩
    rw [List.map_append, separates_leafItem hitem, hseparates, Token.outer_token ho,
      List.map_append]
  case group closer ho hi _ ihi ih =>
    obtain ⟨item, rest, hitem, hrest, rfl⟩ := nestedItems_cons_eq_ok_iff.mp h
    obtain ⟨is, arguments, his, hv, rfl⟩ := nestedItem_group_eq_ok_iff.mp hitem
    obtain ⟨hinner, hdivided⟩ := ihi his
    obtain ⟨hrow, hseparates⟩ := ih hrest
    refine ⟨.parens ho hinner (fun hvisible => ?_) hrow, ?_⟩
    · split at hv
      case isTrue hb =>
        obtain ⟨t, ht, hne⟩ := hvisible
        have := List.filter_eq_nil_iff.mp (hi.filter_eq_nil hb) t ht
        exact absurd (Token.isWhitespace_eq_false_iff.mpr hne) (by simpa using this)
      case isFalse =>
        obtain ⟨v, -, hv⟩ := hv
        have halternates := exists_ofItems_iff.mp ⟨v, hv⟩
        rw [hdivided, alternates_iff_divided] at halternates
        exact halternates.2
    · rw [List.map_append, hseparates, Token.map_separates_parens ho hinner.balanced]
      rfl

theorem exists_spells (h : IsRow (ts.map Placed.token)) : ∃ items, Spells ts items ∧
    items.map Item.separates = (outer (ts.map Placed.token)).map Token.separates := by
  generalize hr : ts.map Placed.token = row at h
  induction h generalizing ts
  case nil =>
    obtain rfl := List.map_eq_nil_iff.mp hr
    exact ⟨[], .nil, rfl⟩
  case token ho hc hf _ ih =>
    obtain ⟨t, ts, rfl, rfl, rfl⟩ := List.map_eq_cons_iff.mp hr
    obtain ⟨item, hitem⟩ := exists_leafItem_iff.mpr ⟨ho, hc, hf⟩
    obtain ⟨items, hs, hseparates⟩ := ih rfl
    refine ⟨_, (Spells.leaf hitem).append hs, ?_⟩
    rw [List.map_append, separates_leafItem hitem, hseparates, Token.outer_token ho,
      List.map_append]
  case parens ho hi hd _ ihi ih =>
    obtain ⟨o, _, rfl, rfl, hrest⟩ := List.map_eq_cons_iff.mp hr
    obtain ⟨us, _, rfl, rfl, hclosed⟩ := List.map_eq_append_iff.mp hrest
    obtain ⟨c, ts, rfl, hc, rfl⟩ := List.map_eq_cons_iff.mp hclosed
    obtain ⟨is, hs, hdivided⟩ := ihi rfl
    obtain ⟨items, hs', hseparates⟩ := ih rfl
    obtain ⟨arguments, hcall⟩ : ∃ arguments, Spells (o :: (us ++ [c]))
        [.part (.value (call o.token arguments))] := by
      by_cases hv : ∃ t ∈ us.map Placed.token, t ≠ .whitespace
      case pos =>
        have halternates := alternates_iff_divided.mpr
          ⟨(Token.outer_ne_nil_iff hi.balanced).mpr hv, hd hv⟩
        rw [← hdivided, ← @exists_ofItems_iff is c.position] at halternates
        obtain ⟨v, hv⟩ := halternates
        exact ⟨some v, .call ho hc hs hv⟩
      case neg =>
        refine ⟨none, .call ho hc hs fun t ht => ?_⟩
        by_contra hne
        exact hv ⟨t.token, List.mem_map_of_mem ht, hne⟩
    have hs := hcall.append hs'
    rw [List.cons_append, List.append_assoc] at hs
    refine ⟨_, hs, ?_⟩
    rw [List.map_append, hseparates, Token.map_separates_parens ho hi.balanced]
    rfl

/-! ### Pairs of parentheses -/

-- Every pair of parentheses in a row is one of those it is read by.
theorem IsRow.divided_inside (h : IsRow row)
    (he : row = front ++ opener :: (inner ++ .closeParen :: back)) (ho : opener.opensParen)
    (hi : Balanced inner) (hv : ∃ t ∈ inner, t ≠ .whitespace) : Divided (outer inner) := by
  induction h generalizing front back
  case nil => simp at he
  case token ho' _ _ _ ih =>
    cases front
    case nil =>
      obtain ⟨rfl, -⟩ := List.cons.inj he
      cases ho.symm.trans ho'
    case cons => exact ih (List.cons.inj he).2
  case parens inner' row' _ hi' hd _ ihi ih =>
    cases front
    case nil =>
      have hinner := hi'.balanced.eq_of_append hi (List.cons.inj he).2
      subst hinner
      exact hd hv
    case cons front =>
      obtain ⟨back', hinner⟩ | ⟨front', -, hrow⟩ :=
        hi'.balanced.pair_of_append ho hi (List.cons.inj he).2
      · exact ihi hinner
      · exact ih hrow

theorem isRow_of_balanced (h : Balanced row) (hf : ∀ t ∈ row, t.isBarred = false)
    (hd : ∀ front opener inner back, row = front ++ opener :: (inner ++ .closeParen :: back) →
      opener.opensParen → Balanced inner → (∃ t ∈ inner, t ≠ .whitespace) →
      Divided (outer inner)) : IsRow row := by
  induction h
  case nil => exact .nil
  case token t _ ho hc _ ih =>
    obtain ⟨hft, hf⟩ := List.forall_mem_cons.mp hf
    refine .token ho hc hft (ih hf fun front opener inner back he => ?_)
    exact hd (t :: front) opener inner back (congrArg (t :: ·) he)
  case parens opener inner row ho hi _ ihi ih =>
    obtain ⟨-, hf⟩ := List.forall_mem_cons.mp hf
    obtain ⟨hfi, hf⟩ := List.forall_mem_append.mp hf
    obtain ⟨-, hf⟩ := List.forall_mem_cons.mp hf
    refine .parens ho (ihi hfi fun front opener' inner' back he => ?_)
      (hd [] opener inner row rfl ho hi) (ih hf fun front opener' inner' back he => ?_)
    · exact hd (opener :: front) opener' inner' (back ++ .closeParen :: row) (by simp [he])
    · exact hd (opener :: (inner ++ .closeParen :: front)) opener' inner' back (by simp [he])

-- The rows of tokens that are values: no comma or slash is without a value on a side, neither
-- outside all parentheses nor in a pair of them that holds more than white space.
structure IsValueRow (ts : List Token) : Prop where
  visible : ∃ t ∈ ts, t ≠ .whitespace
  allowed : ∀ t ∈ ts, t.isBarred = false
  balanced : Balanced ts
  outside : Divided (outer ts)
  inside : ∀ front opener inner back, ts = front ++ opener :: (inner ++ .closeParen :: back) →
    opener.opensParen → Balanced inner → (∃ t ∈ inner, t ≠ .whitespace) → Divided (outer inner)

theorem IsRow.not_isBarred (h : IsRow row) : ∀ t ∈ row, t.isBarred = false := by
  induction h
  case nil => exact List.forall_mem_nil _
  case token hf _ ih => exact List.forall_mem_cons.mpr ⟨hf, ih⟩
  case parens opener _ _ ho _ _ _ ihi ih =>
    have hopener : opener.isBarred = false := by cases opener <;> first | rfl | cases ho
    exact List.forall_mem_cons.mpr
      ⟨hopener, List.forall_mem_append.mpr ⟨ihi, List.forall_mem_cons.mpr ⟨rfl, ih⟩⟩⟩

theorem isValueRow_iff : IsValueRow row ↔ IsRow row ∧ outer row ≠ [] ∧ Divided (outer row) := by
  constructor
  case mp =>
    intro h
    have hrow := isRow_of_balanced h.balanced h.allowed h.inside
    exact ⟨hrow, (Token.outer_ne_nil_iff h.balanced).mpr h.visible, h.outside⟩
  case mpr =>
    rintro ⟨h, hn, hd⟩
    exact ⟨(Token.outer_ne_nil_iff h.balanced).mp hn, h.not_isBarred, h.balanced, hd,
      fun _ _ _ _ he ho hi hv => h.divided_inside he ho hi hv⟩

-- A run of tokens is read exactly if its tokens are those of a value.
theorem exists_ofTokens_iff {finish : Position} :
    (∃ v, ofTokens ts finish = .ok v) ↔ IsValueRow (ts.map Placed.token) := by
  rw [isValueRow_iff]
  constructor
  case mp =>
    rintro ⟨v, h⟩
    obtain ⟨items, hi, hv⟩ := ofTokens_eq_ok_iff_ofItems.mp h
    obtain ⟨hrow, hseparates⟩ := isRow_of_nestedItems (nests_ofRun .nil .nil hi) hi
    have halternates := exists_ofItems_iff.mp ⟨v, hv⟩
    rw [hseparates, alternates_iff_divided] at halternates
    exact ⟨hrow, halternates⟩
  case mpr =>
    rintro ⟨hrow, halternates⟩
    obtain ⟨items, hs, hseparates⟩ := exists_spells hrow
    rw [← alternates_iff_divided, ← hseparates, ← @exists_ofItems_iff items finish]
      at halternates
    obtain ⟨v, hv⟩ := halternates
    exact ⟨v, ofTokens_eq_ok_iff_ofItems.mpr ⟨items, hs.nestedItems_ofRun, hv⟩⟩

end Value
end Stylesheet
