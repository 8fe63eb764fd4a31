import Stylesheet.Proofs.Token.Order
/-!
How far the lexer gets. Each call takes some of the text until nothing is left, and stays at the end
then; the position counts what was taken, and a token has the position of its first character. Main
statement: `Lexer.progresses_calls`.
-/

namespace Stylesheet

-- The line and the column behind a text: lines are counted by their ends, columns by the characters
-- behind the last one.
def Position.behind (cs : List Char) : Position :=
  ⟨1 + cs.count '\n', 1 + (cs.reverse.takeWhile (· ≠ '\n')).length⟩

theorem Position.start_after_eq_behind (cs : List Char) : start.after cs = behind cs := by
  rw [start_after, behind, Nat.add_comm, Nat.add_comm (List.length _)]

namespace Lexing

variable {blank : Bool} {comment : Option Position} {p : Position} {cs : List Char}

def IsComment (cs : List Char) : Prop :=
  ∃ content, ¬['*', '/'] <:+: content ∧ cs = '/' :: '*' :: (content ++ ['*', '/'])

def AreComments (cs : List Char) : Prop :=
  ∃ comments : List (List Char), (∀ c ∈ comments, IsComment c) ∧ cs = comments.flatten

-- What is left of a comment, and the comments behind it.
def EndComments (cs : List Char) : Prop :=
  ∃ content comments, ¬['*', '/'] <:+: content ∧ AreComments comments ∧
    cs = content ++ '*' :: '/' :: comments

theorem areComments_nil : AreComments [] :=
  ⟨[], List.forall_mem_nil _, rfl⟩

theorem EndComments.areComments (h : EndComments cs) : AreComments ('/' :: '*' :: cs) := by
  obtain ⟨content, _, hc, ⟨comments, hcs, rfl⟩, rfl⟩ := h
  refine ⟨('/' :: '*' :: (content ++ ['*', '/'])) :: comments, ?_, by simp⟩
  exact List.forall_mem_cons.mpr ⟨⟨content, hc, rfl⟩, hcs⟩

theorem AreComments.endComments (h : AreComments cs) : EndComments ('*' :: '/' :: cs) :=
  ⟨[], cs, by simp, h, rfl⟩

-- One more character of the comment, unless the comment ends there.
theorem EndComments.cons {c : Char} (h : EndComments cs)
    (hc : ∀ es, c = '*' → cs = '/' :: es → False) : EndComments (c :: cs) := by
  obtain ⟨content, comments, hcontent, hcs, rfl⟩ := h
  refine ⟨c :: content, comments, fun hi => ?_, hcs, rfl⟩
  obtain hp | hi := List.infix_cons_iff.mp hi
  · obtain ⟨rfl, es, rfl⟩ := List.cons_prefix_cons.mp hp
    exact hc _ rfl rfl
  · exact hcontent hi

theorem gap_blank_ne : (gap true comment p cs).result ≠ .ok false := by
  generalize hb : true = blank
  fun_induction gap blank comment p cs
  case case3 | case4 => simp [← hb]
  case case7 => simp
  case case2 ih => exact ih rfl
  all_goals rename_i ih; exact ih hb

-- A gap without white space is made of comments.
theorem areComments_gap (h : (gap blank comment p cs).result = .ok false) :
    ∃ taken, cs = taken ++ (gap blank comment p cs).rest ∧
      (gap blank comment p cs).position = p.after taken ∧
      if comment.isSome then EndComments taken else AreComments taken := by
  fun_induction gap blank comment p cs
  case case1 ih =>
    obtain ⟨taken, hcs, hp, ht⟩ := ih h
    exact ⟨'/' :: '*' :: taken, by simp [← hcs], hp, EndComments.areComments ht⟩
  case case2 => exact absurd h gap_blank_ne
  case case3 | case4 => exact ⟨[], rfl, rfl, areComments_nil⟩
  case case5 ih =>
    obtain ⟨taken, hcs, hp, ht⟩ := ih h
    exact ⟨'*' :: '/' :: taken, by simp [← hcs], hp, AreComments.endComments ht⟩
  case case6 c rest hends ih =>
    obtain ⟨taken, hcs, hp, ht⟩ := ih h
    refine ⟨c :: taken, by simp [← hcs], hp, EndComments.cons ht ?_⟩
    rintro es rfl rfl
    exact hends _ rfl (by rw [hcs]; rfl)
  case case7 => cases h

-- The characters of a token, and what is in front of them: comments, but those in front of white
-- space belong to it.
structure Takes (t : Token) (front own rest : List Char) : Prop where
  own_ne_nil : own ≠ []
  areComments : AreComments front
  startsGap_eq : startsGap (own ++ rest) = t.isWhitespace
  front_eq_nil : t.isWhitespace → front = []

end Lexing

namespace Cursor

open Lexing (gap lexeme Takes)

variable {multibyte : Bool} {c c' : Cursor} {t : Placed}

-- A scan takes some of the text, and counts it.
theorem exists_taken_of_scan (multibyte : Bool) (c : Cursor) : ∃ taken,
    c.rest = taken ++ (c.scan multibyte).2.rest ∧
      (c.scan multibyte).2.position = c.position.after taken := by
  obtain ⟨front, hfront, hp⟩ := Lexing.gap_position false none c.position c.rest
  unfold scan
  dsimp only
  split
  case h_1 | h_2 => exact ⟨front, hfront.symm, hp⟩
  case h_3 hrest => exact ⟨front, by rw [← hfront, hrest], hp⟩
  case h_4 d rest _ hrest =>
    refine ⟨front ++ (lexeme multibyte d rest).taken, ?_, by rw [Position.after_append, hp]⟩
    rw [List.append_assoc, Lexing.lexeme_append, ← hfront, hrest]

theorem scan_of_rest_nil (h : c.rest = []) : c.scan multibyte = (none, c) := by
  obtain ⟨rest, p⟩ := c
  obtain rfl : rest = [] := h
  rfl

theorem scan_rest_length (h : c.rest ≠ []) :
    (c.scan multibyte).2.rest.length < c.rest.length := by
  cases hs : (c.scan multibyte).1
  case none =>
    rw [rest_of_scan_none (Prod.ext hs rfl)]
    exact List.length_pos_iff.mpr h
  case some result => exact scan_length_lt (Prod.ext hs rfl)

-- A token begins where the scan does if it is white space, and else behind the comments there.
theorem exists_takes_of_scan_ok (h : c.scan multibyte = (some (.ok t), c')) :
    ∃ front own, c.rest = front ++ (own ++ c'.rest) ∧ Takes t.token front own c'.rest ∧
      t.position = c.position.after front := by
  have hlt := scan_length_lt h
  obtain ⟨taken, hcs, -⟩ := exists_taken_of_scan multibyte c
  rw [h] at hcs
  unfold scan at h
  dsimp only at h
  split at h
  case h_1 => cases h
  case h_2 hresult =>
    obtain ⟨ht, -⟩ := Prod.mk.inj h
    obtain rfl := Except.ok.inj (Option.some.inj ht)
    refine ⟨[], taken, hcs, ⟨?_, Lexing.areComments_nil, ?_, fun _ => rfl⟩, rfl⟩
    · rintro rfl
      exact absurd (congrArg List.length hcs) hlt.ne'
    · rw [← hcs]
      exact Lexing.startsGap_of_gap (by rw [hresult]; nofun)
  case h_3 => cases h
  case h_4 d rest hresult hrest =>
    obtain ⟨ht, rfl⟩ := Prod.mk.inj h
    have hplace := Option.some.inj ht
    have hgap := Lexing.startsGap_gap hresult
    obtain ⟨front, hfront, hp, hcomments⟩ := Lexing.areComments_gap hresult
    have happend := Lexing.lexeme_append multibyte d rest
    rw [hrest] at hgap hfront
    unfold place at hplace
    split at hplace
    case h_1 token htoken =>
      cases hplace
      have hw := Lexing.not_isWhitespace_of_lexeme htoken
      refine ⟨front, _, by rw [happend, hfront], ⟨Lexing.lexeme_taken_ne_nil multibyte d rest,
        hcomments, by rw [happend, hgap, hw], fun h => ?_⟩, hp⟩
      exact absurd h (by simp [hw])
    case h_2 => cases hplace

end Cursor

namespace Lexer

open Lexing (Takes)

-- The lexer after some calls.
def calls (l : Lexer) : Nat → Lexer
  | 0 => l
  | n + 1 => (l.calls n).next.2

-- What the next call does behind some text: at the end nothing, and else it takes some more.
structure Progresses (l : Lexer) (before : List Char) : Prop where
  position : l.cursor.position = .behind before
  next_at_end : l.cursor.rest = [] → l.next = (none, l)
  exists_taken : l.cursor.rest ≠ [] → ∃ taken ≠ [], l.cursor.rest = taken ++ l.next.2.cursor.rest
  rest_of_none : l.next.1 = none → l.next.2.cursor.rest = []
  token : ∀ t, l.next.1 = some (.ok t) → ∃ front own,
    l.cursor.rest = front ++ (own ++ l.next.2.cursor.rest) ∧
      Takes t.token front own l.next.2.cursor.rest ∧ t.position = .behind (before ++ front)

variable {l : Lexer} {before : List Char}

theorem next_of_ahead_none (h : l.ahead = none) : l.next =
    ((l.cursor.scan l.multibyte).1, { l with cursor := (l.cursor.scan l.multibyte).2 }) := by
  simp only [next, h]

theorem progresses (ha : l.ahead = none) (hp : l.cursor.position = .behind before) :
    l.Progresses before where
  position := hp
  next_at_end h := by rw [next_of_ahead_none ha, Cursor.scan_of_rest_nil h]
  exists_taken h := by
    obtain ⟨taken, hcs, -⟩ := Cursor.exists_taken_of_scan l.multibyte l.cursor
    have hlt := @Cursor.scan_rest_length l.multibyte l.cursor h
    rw [next_of_ahead_none ha]
    refine ⟨taken, ?_, hcs⟩
    rintro rfl
    exact absurd (congrArg List.length hcs) hlt.ne'
  rest_of_none h := by
    rw [next_of_ahead_none ha] at h ⊢
    exact Cursor.rest_of_scan_none (Prod.ext h rfl)
  token t h := by
    rw [next_of_ahead_none ha] at h ⊢
    obtain ⟨front, own, hcs, htakes, ht⟩ := Cursor.exists_takes_of_scan_ok (Prod.ext h rfl)
    refine ⟨front, own, hcs, htakes, ?_⟩
    rw [ht, hp, ← Position.start_after_eq_behind, ← Position.start_after_eq_behind,
      Position.after_append]

/-! ### Calls one after the other -/

variable {multibyte : Bool} {text : String}

theorem ahead_next (h : l.ahead = none) : l.next.2.ahead = none := by
  rw [next_of_ahead_none h]
  exact h

theorem ahead_calls (n : Nat) : ((ofText multibyte text).calls n).ahead = none := by
  induction n
  case zero => rfl
  case succ ih => exact ahead_next ih

-- What is behind the calls so far is counted by the position.
theorem exists_before_calls (multibyte : Bool) (text : String) (n : Nat) : ∃ before,
    Text.unifyLineEnds text.toList = before ++ ((ofText multibyte text).calls n).cursor.rest ∧
      ((ofText multibyte text).calls n).cursor.position = .behind before := by
  induction n
  case zero => exact ⟨[], rfl, rfl⟩
  case succ n ih =>
    obtain ⟨before, hcs, hp⟩ := ih
    rw [calls, next_of_ahead_none (ahead_calls n)]
    generalize (ofText multibyte text).calls n = l at hcs hp
    obtain ⟨taken, hrest, hp'⟩ := Cursor.exists_taken_of_scan l.multibyte l.cursor
    refine ⟨before ++ taken, by rw [hcs, hrest, List.append_assoc], ?_⟩
    rw [← Position.start_after_eq_behind, Position.after_append, Position.start_after_eq_behind,
      ← hp]
    exact hp'

-- As long as there is text left, each call takes some of it.
theorem rest_length_calls (n : Nat) : ((ofText multibyte text).calls n).cursor.rest.length ≤
    (Text.unifyLineEnds text.toList).length - n := by
  induction n
  case zero => exact le_refl _
  case succ n ih =>
    obtain ⟨before, -, hp⟩ := exists_before_calls multibyte text n
    have hp := progresses (ahead_calls n) hp
    rw [calls]
    generalize (ofText multibyte text).calls n = l at ih hp
    by_cases hr : l.cursor.rest = []
    case pos => simp [hp.next_at_end hr, hr]
    case neg =>
      obtain ⟨taken, hn, hcs⟩ := hp.exists_taken hr
      have hpos := List.length_pos_iff.mpr hn
      rw [hcs, List.length_append] at ih
      omega

-- Every call takes some of the text until the end is reached, which is so after as many calls as
-- there are characters at the latest.
theorem progresses_calls (multibyte : Bool) (text : String) :
    (∀ n, ∃ before,
      Text.unifyLineEnds text.toList = before ++ ((ofText multibyte text).calls n).cursor.rest ∧
        ((ofText multibyte text).calls n).Progresses before) ∧
      ∃ n ≤ (Text.unifyLineEnds text.toList).length,
        ((ofText multibyte text).calls n).next.1 = none := by
  constructor
  · intro n
    obtain ⟨before, hcs, hp⟩ := exists_before_calls multibyte text n
    exact ⟨before, hcs, progresses (ahead_calls n) hp⟩
  · refine ⟨_, le_refl _, ?_⟩
    have hlength := @rest_length_calls multibyte text (Text.unifyLineEnds text.toList).length
    rw [Nat.sub_self, Nat.le_zero, List.length_eq_zero_iff] at hlength
    rw [next_of_ahead_none (ahead_calls _), Cursor.scan_of_rest_nil hlength]

end Lexer
end Stylesheet
