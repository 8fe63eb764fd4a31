import Stylesheet.Value.Reader
/-!
Balanced parentheses. In a balanced row every opening token is closed by one parenthesis, and what
is between the two is balanced itself; so what stands outside all parentheses can be told. Main
statements: `Token.Balanced.pair_of_append`, `Token.outside_parens`.
-/

namespace Stylesheet.Token

variable {t opener : Token} {ts us inner front back rest : List Token} {d e : Nat}

-- Rows in which every opening token is closed by a later parenthesis and every closing parenthesis
-- closes one, properly nested.
inductive Balanced : List Token → Prop
  | nil : Balanced []
  | token {t : Token} {ts : List Token} (ho : t.opensParen = false) (hc : t ≠ .closeParen)
    (h : Balanced ts) : Balanced (t :: ts)
  | parens {opener : Token} {inner ts : List Token} (ho : opener.opensParen)
    (hi : Balanced inner) (h : Balanced ts) : Balanced (opener :: (inner ++ .closeParen :: ts))

/-! ### Depth -/

-- How many parentheses are open behind one more token, if it does not close one that is not open.
def depth? : Nat → Token → Option Nat
  | d, function _ | d, openParen => some (d + 1)
  | 0, closeParen => none
  | d + 1, closeParen => some d
  | d, _ => some d

def walk? (d : Nat) (ts : List Token) : Option Nat :=
  ts.foldlM depth? d

theorem depth?_of_opensParen (h : opener.opensParen) : depth? d opener = some (d + 1) := by
  cases opener <;> first | rfl | cases h

theorem depth?_of_token (ho : t.opensParen = false) (hc : t ≠ .closeParen) :
    depth? d t = some d := by
  cases t
  case function | openParen => cases ho
  case closeParen => contradiction
  all_goals rfl

-- What is possible is possible with more parentheses open.
theorem depth?_add (h : depth? d t = some e) (n : Nat) : depth? (d + n) t = some (e + n) := by
  cases t
  case function | openParen =>
    cases h
    exact congrArg some (Nat.add_right_comm d n 1)
  case closeParen =>
    cases d
    case zero => cases h
    case succ d =>
      cases h
      rw [Nat.add_right_comm]
      rfl
  all_goals
    cases h
    rfl

theorem walk?_cons (t : Token) (ts : List Token) :
    walk? d (t :: ts) = (depth? d t).bind (walk? · ts) :=
  List.foldlM_cons

theorem walk?_append (ts us : List Token) :
    walk? d (ts ++ us) = (walk? d ts).bind (walk? · us) :=
  List.foldlM_append

theorem walk?_add (h : walk? d ts = some e) (n : Nat) : walk? (d + n) ts = some (e + n) := by
  induction ts generalizing d
  case nil =>
    cases h
    rfl
  case cons t ts ih =>
    rw [walk?_cons, Option.bind_eq_some_iff] at h
    obtain ⟨d', hd, hw⟩ := h
    rw [walk?_cons, depth?_add hd]
    exact ih hw

theorem Balanced.walk (h : Balanced ts) (d : Nat) : walk? d ts = some d := by
  induction h generalizing d
  case nil => rfl
  case token ho hc _ ih => rw [walk?_cons, depth?_of_token ho hc, Option.bind_some, ih]
  case parens ho _ _ ihi ih =>
    rw [walk?_cons, depth?_of_opensParen ho, Option.bind_some, walk?_append, ihi]
    exact ih d

-- A parenthesis behind a balanced row closes nothing in it.
theorem Balanced.not_append_close (h : Balanced ts) : ¬Balanced (ts ++ .closeParen :: us) := by
  intro h'
  have hw := h'.walk 0
  rw [walk?_append, h.walk] at hw
  cases hw

-- What begins a balanced row does not close the token in front of it.
theorem Balanced.not_append_open (ho : opener.opensParen) (h : Balanced (ts ++ us)) :
    ¬Balanced (front ++ opener :: ts) := by
  intro h'
  have hw := h'.walk 0
  rw [walk?_append, Option.bind_eq_some_iff] at hw
  obtain ⟨d, -, hw⟩ := hw
  have hts := h.walk 0
  rw [walk?_append, Option.bind_eq_some_iff] at hts
  obtain ⟨e, hts, -⟩ := hts
  have hadd := walk?_add hts (d + 1)
  rw [walk?_cons, depth?_of_opensParen ho, Option.bind_some] at hw
  rw [Nat.zero_add, hw] at hadd
  cases hadd

-- Where an opening token is closed is certain.
theorem Balanced.eq_of_append (h : Balanced ts) (h' : Balanced us)
    (he : ts ++ .closeParen :: rest = us ++ .closeParen :: back) : ts = us := by
  rcases List.append_eq_append_iff.mp he with ⟨x, rfl, hx⟩ | ⟨x, rfl, hx⟩
  all_goals
    cases x
    case nil => exact List.append_nil _ ▸ rfl
    case cons =>
      cases (List.cons.inj hx).1
      first | exact absurd h' h.not_append_close | exact absurd h h'.not_append_close

-- A pair of parentheses is within others or behind them.
theorem Balanced.pair_of_append (h : Balanced ts) (ho : opener.opensParen) (hi : Balanced inner)
    (he : ts ++ .closeParen :: rest = front ++ opener :: (inner ++ .closeParen :: back)) :
    (∃ back', ts = front ++ opener :: (inner ++ .closeParen :: back')) ∨
      ∃ front', front = ts ++ .closeParen :: front' ∧
        rest = front' ++ opener :: (inner ++ .closeParen :: back) := by
  have hne : opener ≠ .closeParen := by
    rintro rfl
    cases ho
  rcases List.append_eq_append_iff.mp he with ⟨x, rfl, hx⟩ | ⟨x, rfl, hx⟩
  case inl =>
    cases x
    case nil => exact absurd (List.cons.inj hx).1.symm hne
    case cons =>
      obtain ⟨rfl, hrest⟩ := List.cons.inj hx
      exact .inr ⟨_, rfl, hrest⟩
  case inr =>
    cases x
    case nil => exact absurd (List.cons.inj hx).1 hne
    case cons x =>
      -- The opening token is in the row, and so is what closes it, or the row is not closed.
      obtain ⟨rfl, hinner⟩ := List.cons.inj hx
      rcases List.append_eq_append_iff.mp hinner with ⟨y, rfl, hy⟩ | ⟨y, rfl, -⟩
      case inl =>
        cases y
        case nil =>
          have hi : Balanced (inner ++ []) := by rwa [List.append_nil]
          rw [List.append_nil] at h
          exact absurd h (hi.not_append_open ho)
        case cons =>
          obtain ⟨rfl, -⟩ := List.cons.inj hy
          exact .inl ⟨_, rfl⟩
      case inr => exact absurd h (hi.not_append_open ho)

/-! ### Outside parentheses -/

-- The tokens outside parentheses, `depth` of which are open in front. An opening token stands for
-- all that it opens.
def outside (depth : Nat) : List Token → List Token
  | [] => []
  | t :: ts =>
    let behind := if t.opensParen then depth + 1 else if t = closeParen then depth - 1 else depth
    if depth = 0 then t :: outside behind ts else outside behind ts

theorem opensParen_closeParen : opensParen .closeParen = false := by
  rfl

theorem outside_append (h : Balanced ts) (d : Nat) (rest : List Token) :
    outside (d + 1) (ts ++ rest) = outside (d + 1) rest := by
  induction h generalizing d rest
  case nil => rfl
  case token ho hc _ ih => simp [outside, ho, hc, ih]
  case parens ho _ _ ihi ih => simp [outside, ho, ihi, ih, opensParen_closeParen]

theorem outside_parens (ho : opener.opensParen) (hi : Balanced inner) (ts : List Token) :
    outside 0 (opener :: (inner ++ .closeParen :: ts)) = opener :: outside 0 ts := by
  simp [outside, ho, outside_append hi, opensParen_closeParen]

theorem outside_token (ho : t.opensParen = false) (ts : List Token) :
    outside 0 (t :: ts) = t :: outside 0 ts := by
  simp [outside, ho]

end Stylesheet.Token
