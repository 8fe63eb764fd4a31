import Mathlib.Data.List.Induction
import Stylesheet.Proofs.Sheet.Reading
import Stylesheet.Proofs.Token.Joined
/-!
How deep in braces a reader is. Whatever it makes of the text, well-formed or not, it counts the
braces that are open: one for each at-rule around it, one for the body that it is in, and those of
the blocks that it skips. Main statements: `Reader.depth_readOn`, `Reader.focus_readOn`.
-/

namespace Stylesheet

-- The depth behind a token. A brace that closes nothing leaves it at zero.
def Token.depthAfter (depth : Nat) : Token → Nat
  | openBrace => depth + 1
  | closeBrace => depth - 1
  | _ => depth

theorem Token.depthAfter_add {t : Token} {n : Nat} (k : Nat) (h : 0 < n) :
    t.depthAfter (n + k) = t.depthAfter n + k := by
  cases t <;> simp only [depthAfter] <;> omega

namespace Cursor

def depthAfter (depth : Nat) : Lexed → Nat
  | .ok t => t.token.depthAfter depth
  | .error _ => depth

-- How many braces are open at the end of a text. Malformed tokens do not count.
def depth (results : List Lexed) : Nat :=
  results.foldl depthAfter 0

theorem depthAfter_isBlank {result : Lexed} (h : isBlank result) (depth : Nat) :
    depthAfter depth result = depth := by
  cases result
  case ok t =>
    obtain ⟨token, position⟩ := t
    cases token <;> first | rfl | cases h
  case error => cases h

theorem depth_append_blanks {results : List Lexed} {blank : Bool} {p : Position} :
    depth (results ++ blanks blank p) = depth results := by
  cases blank
  case false => simp [blanks]
  case true => simp [depth, blanks, depthAfter, Token.depthAfter]

theorem endsStatement_append_blanks {results : List Lexed} {blank : Bool} {p : Position} :
    endsStatement (results ++ blanks blank p) = endsStatement results := by
  cases blank
  case false => simp [blanks]
  case true => simp [endsStatement, blanks, isBlank, Token.isWhitespace]

end Cursor

/-! ### The depth of a reader -/

def Clause.depth : Clause → Nat
  | skippingBlock depth => depth + 1
  | _ => 0

def Focus.depth : Focus → Nat
  | between | selector .. | atPrelude .. => 0
  | .body _ b => b.clause.depth + 1
  | skippingBlock depth => depth + 1

-- How many braces are open.
def Reader.depth (r : Reader) : Nat :=
  r.focus.depth + r.frames.length

namespace Body

variable {b : Body} {t : Placed}

def Outcome.depth (o : Outcome) : Nat :=
  if o.closed then 0 else o.body.clause.depth + 1

theorem depth_skip {token : Token} {faults : List Diagnostic} :
    (b.skip token faults).depth = token.depthAfter 1 := by
  cases token <;> rfl

theorem clause_endValue_depth {name : String} {position finish : Position} {tokens : List Placed}
    {damaged : Bool} : (b.endValue name position tokens damaged finish).1.clause.depth = 0 := by
  rw [clause_endValue]
  rfl

-- A body counts one brace until it is closed.
theorem depth_step : (b.step t).depth = t.token.depthAfter (b.clause.depth + 1) := by
  obtain ⟨done, clause⟩ := b
  obtain ⟨token, position⟩ := t
  cases clause
  case between => cases token <;> rfl
  case afterName => cases token <;> rfl
  case value =>
    cases token
    case semicolon => exact congrArg (· + 1) clause_endValue_depth
    all_goals rfl
  case skipping => exact depth_skip
  case skippingBlock depth => cases token <;> cases depth <;> rfl

end Body

namespace Reader

variable {r : Reader} {t : Placed} {result : Lexed} {results : List Lexed}

theorem depth_endStatement {name : String} {prelude : List Token} {damaged : Bool} :
    (r.endStatement name prelude damaged).depth = r.frames.length ∧
      (r.endStatement name prelude damaged).frames = r.frames ∧
      (r.endStatement name prelude damaged).focus = .between := by
  cases damaged <;> simp [endStatement, append, look, depth, Focus.depth]

theorem depth_closeBrace {position : Position} :
    (r.closeBrace position).1.depth = r.frames.length - 1 ∧
      (r.closeBrace position).1.focus = .between := by
  obtain ⟨frames, nodes, focus⟩ := r
  cases frames <;> simp [closeBrace, close, look, depth, Focus.depth]

theorem depth_openBlock {start : Position} {prelude : List Token} {damaged : Bool} :
    (r.openBlock start prelude damaged).1.depth = r.frames.length + 1 := by
  unfold openBlock
  split
  · exact Nat.add_comm ..
  · split <;> exact Nat.add_comm ..

theorem depth_openAtRule {name : String} {prelude : List Token} {damaged : Bool} :
    (r.openAtRule name prelude damaged).depth = r.frames.length + 1 := by
  unfold openAtRule
  split
  · exact Nat.add_comm ..
  · split
    · exact Nat.add_comm ..
    · exact Nat.zero_add _

theorem depth_selectorStep {start : Position} {prelude : List Token} {damaged : Bool} :
    (r.selectorStep start prelude damaged t).1.depth = t.token.depthAfter r.frames.length := by
  obtain ⟨token, position⟩ := t
  cases token
  case openBrace => exact depth_openBlock
  case closeBrace => exact depth_closeBrace.1
  all_goals exact Nat.zero_add _

theorem depth_step : (r.step t).1.depth = t.token.depthAfter r.depth := by
  cases hf : r.focus
  case between =>
    have hd : r.depth = r.frames.length := by simp [depth, hf, Focus.depth]
    simp only [step, hf, hd]
    obtain ⟨token, position⟩ := t
    cases token
    case whitespace | semicolon => exact hd
    case closeBrace => exact depth_closeBrace.1
    case atKeyword => exact Nat.zero_add _
    all_goals exact depth_selectorStep
  case selector =>
    have hd : r.depth = r.frames.length := by simp [depth, hf, Focus.depth]
    simp only [step, hf, hd]
    exact depth_selectorStep
  case atPrelude name prelude damaged =>
    have hd : r.depth = r.frames.length := by simp [depth, hf, Focus.depth]
    obtain ⟨hdepth, hframes, -⟩ := @depth_endStatement r name prelude damaged
    simp only [step, hf, hd]
    obtain ⟨token, position⟩ := t
    cases token
    case openBrace => exact depth_openAtRule
    case semicolon => exact hdepth
    case closeBrace => exact depth_closeBrace.1.trans (by rw [hframes]; rfl)
    all_goals exact Nat.zero_add _
  case body owner body =>
    have hd : r.depth = body.clause.depth + 1 + r.frames.length := by simp [depth, hf, Focus.depth]
    rw [hd, Token.depthAfter_add _ (Nat.zero_lt_succ _), ← Body.depth_step]
    simp only [step, hf, depth, Body.Outcome.depth]
    cases (body.step t).closed <;> simp [look, append, Focus.depth]
  case skippingBlock depth =>
    have hd : r.depth = depth + 1 + r.frames.length := by simp [Reader.depth, hf, Focus.depth]
    rw [hd, Token.depthAfter_add _ (Nat.zero_lt_succ _)]
    simp only [step, hf]
    obtain ⟨token, position⟩ := t
    cases token
    case openBrace => rfl
    case closeBrace => cases depth <;> rfl
    all_goals exact hd

theorem depth_damage : r.damage.depth = r.depth := by
  cases hf : r.focus
  case body owner body =>
    obtain ⟨done, clause⟩ := body
    cases clause <;> simp [damage, hf, look, depth, Focus.depth, Body.damage, Clause.depth]
  all_goals simp [damage, hf, look, depth, Focus.depth]

theorem depth_read : (r.read result).1.depth = Cursor.depthAfter r.depth result := by
  cases result
  case ok => exact depth_step
  case error => exact depth_damage

/-! ### Reading on -/

-- How far a reader comes, and the faults on the way.
def readOn (r : Reader) : List Lexed → Reader × List Diagnostic
  | [] => (r, [])
  | result :: results =>
    let on := readOn (r.read result).1 results
    (on.1, (r.read result).2 ++ on.2)

theorem leads_readOn {finish : Position} {r : Reader} {results back : List Lexed} :
    Leads finish r (results ++ back) (r.readOn results).2 (r.readOn results).1 back := by
  induction results generalizing r
  case nil => exact Leads.refl
  case cons result results ih => rw [List.cons_append, Leads, readAll, ih, readOn, List.append_assoc]

theorem readOn_concat : (r.readOn (results ++ [result])).1 = ((r.readOn results).1.read result).1 := by
  induction results generalizing r
  case nil => rfl
  case cons ih => exact ih

theorem depth_readOn : (r.readOn results).1.depth = results.foldl Cursor.depthAfter r.depth := by
  induction results generalizing r
  case nil => rfl
  case cons ih => rw [readOn, ih, depth_read, List.foldl_cons]

-- What ends a statement outside of all braces ends all that is being read.
theorem focus_step (ht : t.token.isClosing) (h : (r.step t).1.depth = 0) :
    (r.step t).1.focus = .between := by
  rw [depth, Nat.add_eq_zero_iff] at h
  obtain ⟨token, position⟩ := t
  cases hf : r.focus
  case between =>
    cases token
    case semicolon => simp [step, hf]
    case closeBrace => simpa [step, hf] using depth_closeBrace.2
    all_goals cases ht
  case selector =>
    cases token
    case semicolon => simp [step, hf, selectorStep, look]
    case closeBrace => simpa [step, hf, selectorStep] using depth_closeBrace.2
    all_goals cases ht
  case atPrelude =>
    cases token
    case semicolon => simpa [step, hf] using depth_endStatement.2.2
    case closeBrace => simpa [step, hf] using depth_closeBrace.2
    all_goals cases ht
  case body owner body =>
    cases hc : (body.step ⟨token, position⟩).closed
    case true => simp [step, hf, hc, append]
    case false => simp [step, hf, hc, look, Focus.depth] at h
  case skippingBlock depth =>
    cases token
    case semicolon => simp [step, hf, Focus.depth] at h
    case closeBrace =>
      cases depth
      case zero => simp [step, hf, look]
      case succ => simp [step, hf, look, Focus.depth] at h
    all_goals cases ht

theorem focus_readOn (hr : r.focus = .between) (h : Cursor.endsStatement results)
    (hd : (r.readOn results).1.depth = 0) : (r.readOn results).1.focus = .between := by
  induction results using List.reverseRecOn
  case nil => exact hr
  case append_singleton results result ih =>
    rw [readOn_concat] at hd ⊢
    cases hb : Cursor.isBlank result
    case true =>
      have hends : Cursor.endsStatement results := by
        simpa [Cursor.endsStatement, hb] using h
      rw [depth_read, Cursor.depthAfter_isBlank hb] at hd
      cases result
      case error => cases hb
      case ok t =>
        obtain ⟨token, position⟩ := t
        cases token
        case whitespace => simp [read, step, ih hends hd]
        all_goals cases hb
    case false =>
      have hclosing : Cursor.isClosing result := by
        simpa [Cursor.endsStatement, hb] using h
      cases result
      case error => cases hclosing
      case ok t => exact focus_step hclosing hd

end Reader
end Stylesheet
