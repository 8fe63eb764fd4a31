import Mathlib
import Stylesheet.Proofs.Sheet.Bodies
import Stylesheet.Proofs.Sheet.Reading
/-!
The declarations of a body, read one by one. Whatever is in front of a semicolon, nothing of it is
left behind: no more than one declaration comes of it, and what follows is read as if it were the
first. Main statements: `Reader.leads_readAll`, `Body.readAll_append_semicolon`.
-/

namespace Stylesheet

variable {finish : Position} {results rest : List Lexed} {t : Placed}

namespace Body

variable {b : Body} {ds : List Declaration} {faults more : List Diagnostic}

/-! ### Reading to the end of a body -/

-- The declarations up to the end of a body, the faults in it, and the results of the lexer that are
-- left.
structure Reading where
  declarations : List Declaration
  faults : List Diagnostic
  rest : List Lexed

-- What is read behind other declarations and faults.
def Reading.behind (ds : List Declaration) (faults : List Diagnostic) (found : Reading) : Reading :=
  ⟨ds ++ found.declarations, faults ++ found.faults, found.rest⟩

theorem Reading.behind_behind {es : List Declaration} {found : Reading} :
    (found.behind es more).behind ds faults = found.behind (ds ++ es) (faults ++ more) := by
  simp [behind]

def readAll (finish : Position) : Body → List Lexed → Reading
  | b, [] => ⟨(b.endOfText finish).1, (b.endOfText finish).2, []⟩
  | b, .error d :: results => (readAll finish b.damage results).behind [] [d]
  | b, .ok t :: results =>
    let outcome := b.step t
    if outcome.closed then ⟨outcome.body.done, outcome.faults, results⟩
    else (readAll finish outcome.body results).behind [] outcome.faults

theorem readAll_of_step {c : Body} (h : b.step t = ⟨c, false, faults⟩) :
    readAll finish b (.ok t :: rest) = (readAll finish c rest).behind [] faults := by
  simp [readAll, h]

theorem readAll_of_closed {c : Body} (h : b.step t = ⟨c, true, faults⟩) :
    readAll finish b (.ok t :: rest) = ⟨c.done, faults, rest⟩ := by
  simp [readAll, h]

end Body

-- A reader in the braces of an owner reads what its body does, and goes on behind it.
theorem Reader.leads_readAll (r : Reader) (owner : Owner) (b : Body) (results : List Lexed) :
    (r.inside owner b).Leads finish results (b.readAll finish results).faults
      (r.append (owner.node (b.readAll finish results).declarations))
      (b.readAll finish results).rest := by
  induction results generalizing b
  case nil =>
    refine .of_endOfText ?_
    simp [inside, look, endOfText, append, Body.readAll]
  case cons result results ih =>
    cases result
    case error d => exact Leads.of_error.trans (ih b.damage)
    case ok t =>
      cases hstep : b.step t
      case mk c closed faults =>
        cases closed
        case true =>
          rw [Body.readAll_of_closed hstep]
          exact .of_step (by simp [inside, look, step, hstep, append])
        case false =>
          have hgo : (r.inside owner b).step t = (r.inside owner c, faults) := by
            simp [inside, look, step, hstep]
          rw [Body.readAll_of_step hstep]
          exact (Leads.of_step hgo).trans (ih c)

namespace Body

variable {b : Body} {ds : List Declaration} {faults more : List Diagnostic}

/-! ### Behind other declarations -/

def behind (ds : List Declaration) (b : Body) : Body :=
  { b with done := ds ++ b.done }

def Outcome.behind (ds : List Declaration) (outcome : Outcome) : Outcome :=
  { outcome with body := outcome.body.behind ds }

theorem skip_behind {token : Token} :
    (b.behind ds).skip token faults = (b.skip token faults).behind ds := by
  cases token <;> rfl

theorem endValue_behind {name : String} {position stop : Position} {tokens : List Placed}
    {damaged : Bool} : (b.behind ds).endValue name position tokens damaged stop =
      ((b.endValue name position tokens damaged stop).1.behind ds,
        (b.endValue name position tokens damaged stop).2) := by
  cases damaged
  case true => rfl
  case false =>
    cases hd : Declaration.ofTokens name position tokens stop <;> simp [endValue, hd, behind]

theorem step_behind : (b.behind ds).step t = (b.step t).behind ds := by
  obtain ⟨done, clause⟩ := b
  obtain ⟨token, position⟩ := t
  cases clause
  case between | afterName => cases token <;> rfl
  case value name start tokens damaged =>
    have hend := @endValue_behind ⟨done, .value name start tokens damaged⟩ ds name start position
      tokens damaged
    cases token
    case semicolon | closeBrace =>
      exact congrArg (fun ended : Body × List Diagnostic => Outcome.mk ended.1 _ ended.2) hend
    all_goals rfl
  case skipping => exact skip_behind
  case skippingBlock => cases token <;> rfl

theorem damage_behind : (b.behind ds).damage = b.damage.behind ds := by
  obtain ⟨done, clause⟩ := b
  cases clause <;> rfl

theorem endOfText_behind :
    (b.behind ds).endOfText finish = (ds ++ (b.endOfText finish).1, (b.endOfText finish).2) := by
  obtain ⟨done, clause⟩ := b
  cases clause
  case value name start tokens damaged =>
    have hend := @endValue_behind ⟨done, .value name start tokens damaged⟩ ds name start finish
      tokens damaged
    exact congrArg (fun ended : Body × List Diagnostic =>
      (ended.1.done, ended.2 ++ [.atToken .unterminatedBlock finish])) hend
  all_goals rfl

theorem readAll_behind :
    (b.behind ds).readAll finish results = (b.readAll finish results).behind ds [] := by
  induction results generalizing b
  case nil => simp [readAll, endOfText_behind, Reading.behind]
  case cons result results ih =>
    cases result
    case error d => simp [readAll, damage_behind, ih, Reading.behind_behind]
    case ok t =>
      cases hstep : b.step t
      case mk c closed faults =>
        have hbehind : (b.behind ds).step t = ⟨c.behind ds, closed, faults⟩ := by
          rw [step_behind, hstep]
          rfl
        cases closed
        case true =>
          rw [readAll_of_closed hbehind, readAll_of_closed hstep]
          rfl
        case false =>
          rw [readAll_of_step hbehind, readAll_of_step hstep, ih]
          simp [Reading.behind_behind]

end Body

/-! ### Up to a semicolon -/

-- Whether no braced block is being skipped, so that a semicolon ends what is being read.
def Clause.isFlat : Clause → Bool
  | .skippingBlock _ => false
  | _ => true

namespace Body

variable {b : Body}

theorem step_staysIn (hb : b.clause.isFlat) (ht : t.token.staysIn) : ∃ clause faults,
    b.step t = ⟨⟨b.done, clause⟩, false, faults⟩ ∧ clause.isFlat := by
  obtain ⟨done, clause⟩ := b
  obtain ⟨token, position⟩ := t
  cases clause
  case skippingBlock => cases hb
  all_goals
    cases token
    case semicolon | openBrace | closeBrace => cases ht
    all_goals exact ⟨_, _, rfl, rfl⟩

theorem damage_isFlat (hb : b.clause.isFlat) : ∃ clause,
    b.damage = ⟨b.done, clause⟩ ∧ clause.isFlat := by
  obtain ⟨done, clause⟩ := b
  cases clause
  case skippingBlock => cases hb
  all_goals exact ⟨_, rfl, rfl⟩

-- Behind a semicolon there may be another declaration.
theorem step_semicolon (hb : b.clause.isFlat) (p : Position) : ∃ ds faults, ds.length ≤ 1 ∧
    b.step ⟨.semicolon, p⟩ = ⟨⟨b.done ++ ds, .between⟩, false, faults⟩ := by
  obtain ⟨done, clause⟩ := b
  cases clause
  case skippingBlock => cases hb
  case value name start tokens damaged =>
    cases damaged
    case true => exact ⟨[], [], Nat.zero_le 1, by simp [step, endValue]⟩
    case false =>
      cases hd : Declaration.ofTokens name start tokens p
      case ok d => exact ⟨[d], [], Nat.le_refl 1, by simp [step, endValue, hd]⟩
      case error e => exact ⟨[], [e], Nat.zero_le 1, by simp [step, endValue, hd]⟩
  all_goals exact ⟨[], _, Nat.zero_le 1, by rw [List.append_nil]; rfl⟩

theorem readAll_upTo_semicolon {front : List Lexed} (h : ∀ t, .ok t ∈ front → t.token.staysIn)
    (hb : b.clause.isFlat) (p : Position) : ∃ ds faults, ds.length ≤ 1 ∧
      ∀ finish rest, b.readAll finish (front ++ .ok ⟨.semicolon, p⟩ :: rest) =
        (readAll finish ⟨b.done ++ ds, .between⟩ rest).behind [] faults := by
  induction front generalizing b
  case nil =>
    obtain ⟨ds, faults, hlength, hstep⟩ := step_semicolon hb p
    exact ⟨ds, faults, hlength, fun finish rest => readAll_of_step hstep⟩
  case cons result front ih =>
    have hfront : ∀ t, .ok t ∈ front → t.token.staysIn :=
      fun t ht => h t (List.mem_cons_of_mem _ ht)
    cases result
    case error d =>
      obtain ⟨clause, hdamage, hclause⟩ := damage_isFlat hb
      obtain ⟨ds, faults, hlength, hrest⟩ := @ih ⟨b.done, clause⟩ hfront hclause
      refine ⟨ds, d :: faults, hlength, fun finish rest => ?_⟩
      rw [List.cons_append, readAll, hdamage, hrest, Reading.behind_behind]
      rfl
    case ok t =>
      obtain ⟨clause, found, hstep, hclause⟩ := step_staysIn hb (h t List.mem_cons_self)
      obtain ⟨ds, faults, hlength, hrest⟩ := @ih ⟨b.done, clause⟩ hfront hclause
      refine ⟨ds, found ++ faults, hlength, fun finish rest => ?_⟩
      rw [List.cons_append, readAll_of_step hstep, hrest, Reading.behind_behind]
      rfl

-- One declaration never affects the next. What is in front of a semicolon, however malformed, is
-- read as it is at the end of a block, and what is behind it as it is at the beginning.
theorem readAll_append_semicolon {front : List Lexed}
    (h : ∀ t, .ok t ∈ front → t.token.staysIn) (rest : List Lexed) (p q stop finish : Position) :
    ∃ ds faults, ds.length ≤ 1 ∧
      readAll stop {} (front ++ [.ok ⟨.semicolon, p⟩, .ok ⟨.closeBrace, q⟩]) = ⟨ds, faults, []⟩ ∧
      readAll finish {} (front ++ .ok ⟨.semicolon, p⟩ :: rest) =
        (readAll finish {} rest).behind ds faults ∧
      ∀ (r : Reader) (owner : Owner),
        (r.inside owner {}).Leads finish (front ++ .ok ⟨.semicolon, p⟩ :: rest)
          (faults ++ (readAll finish {} rest).faults)
          (r.append (owner.node (ds ++ (readAll finish {} rest).declarations)))
          (readAll finish {} rest).rest := by
  obtain ⟨ds, faults, hlength, hread⟩ := @readAll_upTo_semicolon {} front h rfl p
  have hbehind (finish : Position) (rest : List Lexed) :
      readAll finish {} (front ++ .ok ⟨.semicolon, p⟩ :: rest) =
        (readAll finish {} rest).behind ds faults := by
    have hdone := @readAll_behind finish rest {} ds
    rw [behind, List.append_nil] at hdone
    rw [hread, List.nil_append, hdone, Reading.behind_behind, List.append_nil, List.nil_append]
  refine ⟨ds, faults, hlength, ?_, hbehind finish rest, fun r owner => ?_⟩
  · rw [hbehind]
    simp [readAll, step, Reading.behind]
  · have hleads := @Reader.leads_readAll finish r owner {}
      (front ++ .ok ⟨.semicolon, p⟩ :: rest)
    rwa [hbehind] at hleads

-- A malformed token behind a property name and a parenthesis that was not opened, in front of a
-- declaration in a block that is not closed.
theorem readAll_append_semicolon_malformed :
    (∀ t, .ok t ∈ ((Cursor.ofText "a\"\n:)").lex true).1 → t.token.staysIn) ∧
    ∃ ds faults, ds.length ≤ 1 ∧
      readAll .start {} (((Cursor.ofText "a\"\n:)").lex true).1 ++
        [.ok ⟨.semicolon, ⟨2, 3⟩⟩, .ok ⟨.closeBrace, ⟨2, 4⟩⟩]) = ⟨ds, faults, []⟩ ∧
      readAll ⟨3, 1⟩ {} (((Cursor.ofText "a\"\n:)").lex true).1 ++
        .ok ⟨.semicolon, ⟨2, 3⟩⟩ :: ((Cursor.ofText "b:c").lex true).1) =
          (readAll ⟨3, 1⟩ {} ((Cursor.ofText "b:c").lex true).1).behind ds faults := by
  have hlex : ((Cursor.ofText "a\"\n:)").lex true).1 =
      [.ok ⟨.identifier "a", ⟨1, 1⟩⟩, .error ⟨.lexical .unterminatedString, ⟨1, 2⟩⟩,
        .ok ⟨.whitespace, ⟨1, 3⟩⟩, .ok ⟨.colon, ⟨2, 1⟩⟩, .ok ⟨.closeParen, ⟨2, 2⟩⟩] := by cbv
  have h : ∀ t, .ok t ∈ ((Cursor.ofText "a\"\n:)").lex true).1 → t.token.staysIn := by
    rw [hlex]
    simp [Token.staysIn]
  obtain ⟨ds, faults, hlength, hfront, hall, -⟩ := readAll_append_semicolon h
    ((Cursor.ofText "b:c").lex true).1 ⟨2, 3⟩ ⟨2, 4⟩ .start ⟨3, 1⟩
  exact ⟨h, ds, faults, hlength, hfront, hall⟩

end Body
end Stylesheet
