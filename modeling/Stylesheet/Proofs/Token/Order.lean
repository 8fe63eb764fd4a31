import Mathlib.Data.List.Induction
import Mathlib.Data.Prod.Lex
import Stylesheet.Proofs.Token.Joined
/-!
Where tokens stand. Positions are in order by line and column, and so are the results of the lexer
on a text, each token at the line and column of its first character. Main statements:
`Position.start_after`, `Cursor.lex_inOrder`, `Cursor.exists_of_mem_lex`.
-/

namespace Stylesheet

namespace Position

variable {p q : Position} {c : Char} {cs : List Char}

instance : Preorder Position :=
  Preorder.lift fun p => toLex (p.line, p.column)

theorem lt_iff : p < q ↔ p.line < q.line ∨ p.line = q.line ∧ p.column < q.column :=
  Prod.Lex.lt_iff

theorem lt_next : p < p.next c := by
  rw [lt_iff, next]
  split <;> simp

theorem le_after (p : Position) (cs : List Char) : p ≤ p.after cs := by
  induction cs generalizing p
  case nil => exact le_refl p
  case cons c cs ih => exact lt_next.le.trans (ih (p.next c))

theorem lt_after (h : cs ≠ []) : p < p.after cs := by
  obtain ⟨c, cs, rfl⟩ := List.exists_cons_of_ne_nil h
  exact lt_next.trans_le (le_after _ cs)

-- Lines are counted by the line ends in front, columns by what is behind the last one.
theorem start_after (cs : List Char) : start.after cs =
    ⟨cs.count '\n' + 1, (cs.reverse.takeWhile (· ≠ '\n')).length + 1⟩ := by
  induction cs using List.reverseRecOn
  case nil => rfl
  case append_singleton cs c ih =>
    rw [after_append, ih]
    by_cases hc : c = '\n' <;> simp [after, next, hc]

end Position

namespace Lexing

variable {multibyte : Bool} {quote c : Char} {front cs rest : List Char} {trouble : Trouble}

-- A fault is reported at the beginning of its lexeme, or else in front of some of it.
def Lexeme.IsLocal (l : Lexeme) : Prop :=
  ∀ trouble, l.result = .error trouble →
    trouble.before = [] ∨ ∃ behind ≠ [], trouble.before ++ behind = l.taken

theorem Lexeme.isLocal_faulty {fault : LexicalFault} {taken rest : List Char} :
    (faulty fault taken rest).IsLocal := by
  rintro _ ⟨⟩
  exact .inl rfl

theorem Lexeme.isLocal_of_ok {t : Token} {taken rest : List Char} :
    (⟨.ok t, taken, rest⟩ : Lexeme).IsLocal := by
  rintro _ ⟨⟩

theorem Lexeme.isLocal_decoded {token : String → Token} {written taken rest : List Char} :
    (decoded token written taken rest).IsLocal := by
  unfold decoded
  split
  · exact isLocal_of_ok
  · exact isLocal_faulty

theorem isLocal_quotedUrl : (quotedUrl front quote cs).IsLocal := by
  unfold quotedUrl
  split
  case h_1 taken rest hq =>
    rintro _ ⟨⟩
    have htaken : (quoted quote cs).2.1 ≠ [] := by
      fun_cases quoted quote cs <;> exact List.cons_ne_nil _ _
    rw [hq] at htaken
    exact .inr ⟨taken, htaken, rfl⟩
  case h_2 =>
    dsimp only
    split
    · exact Lexeme.isLocal_faulty
    · split
      · exact Lexeme.isLocal_decoded
      · exact Lexeme.isLocal_faulty

theorem isLocal_bareUrl : (bareUrl front cs).IsLocal := by
  unfold bareUrl
  dsimp only
  split
  case h_2 => exact Lexeme.isLocal_decoded
  all_goals exact Lexeme.isLocal_faulty

theorem isLocal_url : (url front cs).IsLocal := by
  unfold url
  dsimp only
  split
  · exact isLocal_bareUrl
  · split
    · exact isLocal_quotedUrl
    · exact isLocal_bareUrl

theorem isLocal_identifierLike : (identifierLike multibyte cs).IsLocal := by
  unfold identifierLike
  dsimp only
  split
  · split
    · exact Lexeme.isLocal_faulty
    · split
      · exact isLocal_url
      · exact Lexeme.isLocal_of_ok
  · exact Lexeme.isLocal_decoded

theorem isLocal_number : (number multibyte cs).IsLocal := by
  unfold number
  dsimp only
  split
  · exact Lexeme.isLocal_faulty
  · split
    case h_3 => exact Lexeme.isLocal_of_ok
    all_goals exact Lexeme.isLocal_faulty

theorem isLocal_string : (string quote cs).IsLocal := by
  unfold string
  split
  · exact Lexeme.isLocal_decoded
  · exact Lexeme.isLocal_faulty

theorem isLocal_lexeme : (lexeme multibyte c rest).IsLocal := by
  fun_cases lexeme
  case case1 => exact isLocal_string
  case case2 | case3 => exact Lexeme.isLocal_decoded
  case case4 => exact isLocal_number
  case case5 => exact isLocal_identifierLike
  case case7 => exact Lexeme.isLocal_of_ok
  all_goals exact Lexeme.isLocal_faulty

theorem gap_position (blank : Bool) (comment : Option Position) (p : Position) (cs : List Char) :
    ∃ taken, taken ++ (gap blank comment p cs).rest = cs ∧
      (gap blank comment p cs).position = p.after taken := by
  fun_induction gap blank comment p cs
  case case1 ih =>
    obtain ⟨taken, hcs, hp⟩ := ih
    exact ⟨'/' :: '*' :: taken, by simp [hcs], by rw [hp]; rfl⟩
  case case2 c rest _ _ ih =>
    obtain ⟨taken, hcs, hp⟩ := ih
    exact ⟨c :: taken, by simp [hcs], by rw [hp]; rfl⟩
  case case5 ih =>
    obtain ⟨taken, hcs, hp⟩ := ih
    exact ⟨'*' :: '/' :: taken, by simp [hcs], by rw [hp]; rfl⟩
  case case6 c rest _ ih =>
    obtain ⟨taken, hcs, hp⟩ := ih
    exact ⟨c :: taken, by simp [hcs], by rw [hp]; rfl⟩
  all_goals exact ⟨[], rfl, rfl⟩

theorem le_gap_position {blank : Bool} {comment : Option Position} {p : Position} :
    p ≤ (gap blank comment p cs).position := by
  obtain ⟨taken, -, hp⟩ := gap_position blank comment p cs
  exact hp ▸ p.le_after taken

-- A comment that does not end begins inside the gap, unless that begins inside the comment.
theorem gap_error_position {blank : Bool} {comment : Option Position} {p start : Position}
    (h : (gap blank comment p cs).result = .error start) :
    comment = some start ∨ p ≤ start ∧ start < (gap blank comment p cs).position := by
  fun_induction gap blank comment p cs
  case case1 p rest ih =>
    have hp : p < p.after ['/', '*'] := Position.lt_after (List.cons_ne_nil _ _)
    rcases ih h with hs | ⟨hs, hg⟩
    · cases hs
      exact .inr ⟨le_refl _, hp.trans_le le_gap_position⟩
    · exact .inr ⟨hp.le.trans hs, hg⟩
  case case2 p c rest _ _ ih =>
    obtain ⟨hs, hg⟩ := (ih h).resolve_left (by simp)
    exact .inr ⟨Position.lt_next.le.trans hs, hg⟩
  case case3 | case4 => cases h
  case case5 p rest ih =>
    obtain ⟨hs, hg⟩ := (ih h).resolve_left (by simp)
    exact .inr ⟨(p.le_after ['*', '/']).trans hs, hg⟩
  case case6 p c rest _ ih =>
    refine (ih h).imp_right fun hbehind => ?_
    exact ⟨Position.lt_next.le.trans hbehind.1, hbehind.2⟩
  case case7 => cases h; exact .inl rfl

end Lexing

namespace Cursor

open Lexing (gap lexeme)

variable {multibyte : Bool} {cs rest : List Char} {p q : Position} {c : Char}

def positionOf : Lexed → Position
  | .ok t => t.position
  | .error d => d.position

-- A lexeme is reported where it stands.
theorem positionOf_place : q ≤ positionOf (place q (lexeme multibyte c rest)) ∧
    positionOf (place q (lexeme multibyte c rest)) <
      q.after (lexeme multibyte c rest).taken := by
  have hn := Lexing.lexeme_taken_ne_nil multibyte c rest
  unfold place
  split
  case h_1 => exact ⟨le_refl q, Position.lt_after hn⟩
  case h_2 trouble ht =>
    refine ⟨q.le_after trouble.before, ?_⟩
    rcases Lexing.isLocal_lexeme trouble ht with hb | ⟨behind, hne, hb⟩
    · exact hb ▸ Position.lt_after hn
    · rw [← hb, Position.after_append]
      exact Position.lt_after hne

-- Positions that go up, from `p` on.
def RisesFrom (p : Position) (positions : List Position) : Prop :=
  (∀ x ∈ positions, p ≤ x) ∧ positions.Pairwise (· < ·)

theorem RisesFrom.cons {x : Position} {xs : List Position} (hp : p ≤ x) (hx : x < q)
    (h : RisesFrom q xs) : RisesFrom p (x :: xs) :=
  ⟨List.forall_mem_cons.mpr ⟨hp, fun y hy => hp.trans (hx.le.trans (h.1 y hy))⟩,
    .cons (fun y hy => hx.trans_le (h.1 y hy)) h.2⟩

theorem risesFrom_singleton (h : p ≤ q) : RisesFrom p [q] :=
  ⟨by simpa using h, List.pairwise_singleton _ _⟩

-- The white space in a gap stands in front of what is behind the gap.
theorem RisesFrom.blanks {blank : Bool} {xs : List Position}
    (hg : gap false none p cs = ⟨.ok blank, rest, q⟩) (h : RisesFrom q xs) :
    RisesFrom p ((blanks blank p).map positionOf ++ xs) := by
  obtain ⟨taken, hcs, hq⟩ := Lexing.gap_position false none p cs
  rw [hg] at hcs hq
  obtain rfl : q = p.after taken := hq
  cases blank
  case false => exact ⟨fun x hx => (p.le_after taken).trans (h.1 x hx), h.2⟩
  case true =>
    have hlt := @Lexing.gap_rest_length p cs (by simp [hg])
    rw [hg, ← hcs, List.length_append] at hlt
    have hn : taken ≠ [] := List.ne_nil_of_length_pos (by simpa using hlt)
    exact .cons (le_refl p) (Position.lt_after hn) h

-- The results of the lexer are in the order of their positions, and in front of the end.
theorem lex_inOrder (cs : List Char) (p : Position) :
    RisesFrom p ((lex multibyte ⟨cs, p⟩).1.map positionOf ++ [(lex multibyte ⟨cs, p⟩).2]) := by
  induction cs, p using lexemes_induction multibyte
  case h₁ cs p rest q start hg =>
    have hs := @Lexing.gap_error_position cs false none p start (by rw [hg])
    rw [hg] at hs
    obtain ⟨hp, hq⟩ := hs.resolve_left (by simp)
    rw [lex_of_gap_error hg]
    exact .cons hp hq (risesFrom_singleton (le_refl q))
  case h₂ cs p blank q hg =>
    rw [lex_of_gap_nil hg]
    exact .blanks hg (risesFrom_singleton (le_refl q))
  case h₃ cs p blank c rest q hg ih =>
    rw [lex_of_gap_cons hg]
    obtain ⟨hq, hl⟩ := @positionOf_place multibyte rest q c
    simpa using RisesFrom.blanks hg (.cons hq hl ih)

-- A token stands where its first character does.
theorem exists_of_mem_lex {t : Placed} (hw : t.token ≠ .whitespace)
    (h : .ok t ∈ (lex multibyte ⟨cs, p⟩).1) : ∃ front c rest, cs = front ++ c :: rest ∧
      t.position = p.after front ∧ (lexeme multibyte c rest).result = .ok t.token := by
  have hblanks {blank : Bool} {p : Position} : .ok t ∉ blanks blank p := by
    cases blank
    case false => exact List.not_mem_nil
    case true =>
      intro hm
      cases List.mem_singleton.mp hm
      exact hw rfl
  induction cs, p using lexemes_induction multibyte
  case h₁ hg =>
    rw [lex_of_gap_error hg, List.mem_singleton] at h
    cases h
  case h₂ hg =>
    rw [lex_of_gap_nil hg] at h
    exact absurd h hblanks
  case h₃ cs p blank c rest q hg ih =>
    obtain ⟨taken, hcs, hq⟩ := Lexing.gap_position false none p cs
    rw [hg] at hcs hq
    rw [lex_of_gap_cons hg, List.mem_append, List.mem_cons] at h
    rcases h with h | h | h
    · exact absurd h hblanks
    · refine ⟨taken, c, rest, hcs.symm, ?_⟩
      unfold place at h
      split at h
      case h_1 token ht =>
        cases h
        exact ⟨hq, ht⟩
      case h_2 => cases h
    · obtain ⟨front, d, behind, hbehind, ht, hl⟩ := ih h
      refine ⟨taken ++ (lexeme multibyte c rest).taken ++ front, d, behind, ?_, ?_, hl⟩
      · rw [← hcs, ← Lexing.lexeme_append multibyte c rest, hbehind]
        simp
      · rw [ht, Position.after_append, Position.after_append, ← hq]

end Cursor
end Stylesheet
