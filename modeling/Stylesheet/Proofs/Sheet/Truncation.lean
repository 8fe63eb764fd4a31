import Stylesheet.Proofs.Sheet.Composition
import Stylesheet.Proofs.Token.WellFormed
/-!
Texts that end inside of braces. Whatever is being read there, the end of the text leaves the same
nodes as the closing braces that are missing. Main statements: `Reader.readAll_closings`,
`Sheet.parse_append_closings`.
-/

namespace Stylesheet

/-! ### Where a text ends -/

theorem Value.ofTokens_finish (tokens : List Placed) (p q : Position) :
    (ofTokens tokens p).toOption = (ofTokens tokens q).toOption := by
  have h := (ofTokens_unplaced tokens p).symm.trans (ofTokens_unplaced tokens q)
  simpa [Diagnostic.toOption_unplacedResult] using congrArg Except.toOption h

theorem Declaration.ofTokens_finish (name : String) (position : Position) (tokens : List Placed)
    (p q : Position) : (ofTokens name position tokens p).toOption =
      (ofTokens name position tokens q).toOption := by
  have h := Value.ofTokens_finish (splitImportant tokens).2 p q
  simp only [ofTokens]
  split
  case isTrue => rfl
  case isFalse =>
    cases hp : Value.ofTokens (splitImportant tokens).2 p <;>
      cases hq : Value.ofTokens (splitImportant tokens).2 q <;> rw [hp, hq] at h <;> cases h <;> rfl

namespace Body

variable {b : Body}

theorem endValue_fst (name : String) (position : Position) (tokens : List Placed) (damaged : Bool)
    (p : Position) : (b.endValue name position tokens damaged p).1 =
      ⟨b.done ++ (if damaged then [] else
        (Declaration.ofTokens name position tokens p).toOption.toList), .between⟩ := by
  cases damaged
  case true => simp [endValue]
  case false => cases h : Declaration.ofTokens name position tokens p <;> simp [endValue, h, Except.toOption]

-- What a body keeps does not depend on where the text ends.
theorem endOfText_finish (p q : Position) : (b.endOfText p).1 = (b.endOfText q).1 := by
  obtain ⟨done, clause⟩ := b
  cases clause
  case value name position tokens damaged =>
    simp only [endOfText, endValue_fst, Declaration.ofTokens_finish name position tokens p q]
  all_goals rfl

-- A closing brace leaves what the end of the text would leave.
theorem endOfText_step (p : Position) :
    (if (b.step ⟨.closeBrace, p⟩).closed then (b.step ⟨.closeBrace, p⟩).body.done
      else ((b.step ⟨.closeBrace, p⟩).body.endOfText p).1) = (b.endOfText p).1 := by
  obtain ⟨done, clause⟩ := b
  cases clause
  case skippingBlock depth => cases depth <;> rfl
  all_goals rfl

end Body

namespace Reader

variable {r : Reader}

theorem closeAll_finish (frames : List Frame) (nodes : Sheet Declaration) (p q : Position) :
    (closeAll p frames nodes).1 = (closeAll q frames nodes).1 := by
  induction frames generalizing nodes
  case nil => rfl
  case cons ih => exact ih _

-- What is kept does not depend on where the text ends.
theorem endOfText_finish (p q : Position) : (r.endOfText p).1 = (r.endOfText q).1 := by
  cases hf : r.focus
  case body owner body =>
    simp only [endOfText, hf, @Body.endOfText_finish body p q]
    exact closeAll_finish ..
  all_goals
    simp only [endOfText, hf]
    exact closeAll_finish ..

theorem endOfText_closeBrace (h : 0 < r.frames.length) (p : Position) :
    ((r.closeBrace p).1.endOfText p).1 = (closeAll p r.frames r.nodes).1 := by
  obtain ⟨frames, nodes, focus⟩ := r
  cases frames
  case nil => cases h
  case cons => rfl

-- A brace that closes something leaves what the end of the text would leave.
theorem endOfText_step (h : 0 < r.depth) (p : Position) :
    ((r.step ⟨.closeBrace, p⟩).1.endOfText p).1 = (r.endOfText p).1 := by
  cases hf : r.focus
  case between =>
    have hframes : 0 < r.frames.length := by simpa [depth, hf, Focus.depth] using h
    simp only [step, hf, endOfText_closeBrace hframes]
    simp only [endOfText, hf]
  case selector =>
    have hframes : 0 < r.frames.length := by simpa [depth, hf, Focus.depth] using h
    simp only [step, hf, selectorStep, endOfText_closeBrace hframes]
    simp only [endOfText, hf]
  case atPrelude name prelude damaged =>
    obtain ⟨-, hends, -⟩ := @depth_endStatement r name prelude damaged
    have hframes : 0 < (r.endStatement name prelude damaged).frames.length := by
      simpa [hends, depth, hf, Focus.depth] using h
    simp only [step, hf, endOfText_closeBrace hframes]
    simp only [endOfText, hf]
  case body owner body =>
    have hbody := @Body.endOfText_step body p
    simp only [step, hf]
    cases hc : (body.step ⟨.closeBrace, p⟩).closed
    case true =>
      rw [hc, if_pos rfl] at hbody
      simp only [if_true, endOfText, hf, append, hbody]
    case false =>
      rw [hc, if_neg Bool.false_ne_true] at hbody
      simp only [Bool.false_eq_true, if_false, endOfText, hf, look, append, hbody]
  case skippingBlock depth =>
    simp only [step, hf]
    cases depth <;> simp only [endOfText, look, hf] <;> rfl

-- The braces that are missing leave what the end of the text leaves.
theorem readAll_closings (finish p : Position) (positions : List Position)
    (h : positions.length = r.depth) :
    (r.readAll finish (positions.map fun p => .ok ⟨.closeBrace, p⟩)).1 = (r.endOfText p).1 := by
  induction positions generalizing r
  case nil => exact endOfText_finish finish p
  case cons q positions ih =>
    have hpos : 0 < r.depth := by rw [← h]; exact Nat.zero_lt_succ _
    have hstep : positions.length = (r.step ⟨.closeBrace, q⟩).1.depth := by
      rw [depth_step, ← h]
      rfl
    calc (r.readAll finish ((q :: positions).map fun p => .ok ⟨.closeBrace, p⟩)).1
      _ = ((r.step ⟨.closeBrace, q⟩).1.endOfText p).1 := ih hstep
      _ = ((r.step ⟨.closeBrace, q⟩).1.endOfText q).1 := endOfText_finish p q
      _ = (r.endOfText q).1 := endOfText_step hpos q
      _ = (r.endOfText p).1 := endOfText_finish q p

end Reader

namespace Sheet

variable {settings : Settings}

-- A text without malformed tokens is read as if the braces that are open at its end were closed.
theorem parse_append_closings (hl : settings.lenient) {text : String}
    (hlex : Cursor.isWellFormed ((Cursor.ofText text).lex settings.multibyte).1) :
    ∃ p₁ p₂, parse settings text = .ok p₁ ∧
      parse settings (text ++ String.ofList (List.replicate
        (Cursor.depth ((Cursor.ofText text).lex settings.multibyte).1) '}')) = .ok p₂ ∧
      p₂.sheet = p₁.sheet := by
  generalize hk : Cursor.depth ((Cursor.ofText text).lex settings.multibyte).1 = k
  obtain ⟨finish₁, h₁⟩ := parse_lenient hl text
  obtain ⟨finish₂, h₂⟩ := parse_lenient hl (text ++ String.ofList (List.replicate k '}'))
  refine ⟨_, _, h₁, h₂, ?_⟩
  obtain ⟨positions, hlength, happend⟩ := Cursor.lex_append_closings hlex k
  have hdepth := @Reader.depth_readOn {} ((Cursor.ofText text).lex settings.multibyte).1
  have hfirst := @Reader.leads_readOn finish₁ {} ((Cursor.ofText text).lex settings.multibyte).1 []
  rw [List.append_nil] at hfirst
  rw [happend, Reader.leads_readOn, hfirst]
  refine Reader.readAll_closings _ _ positions ?_
  rw [hdepth, hlength, ← hk]
  rfl

-- Cut off in an at-rule, in a block, in a value that turns out to be a block.
theorem parse_append_closings_nested :
    Cursor.isWellFormed ((Cursor.ofText "@media print\x7ba\x7bb:c;d:e\x7bf:g").lex true).1 ∧
      ∃ p₁ p₂, parse {} "@media print\x7ba\x7bb:c;d:e\x7bf:g" = .ok p₁ ∧
        parse {} ("@media print\x7ba\x7bb:c;d:e\x7bf:g" ++ String.ofList (List.replicate 3 '}')) =
          .ok p₂ ∧ p₂.sheet = p₁.sheet := by
  have hlex : Cursor.isWellFormed
      ((Cursor.ofText "@media print\x7ba\x7bb:c;d:e\x7bf:g").lex true).1 := by cbv
  have hdepth : Cursor.depth
      ((Cursor.ofText "@media print\x7ba\x7bb:c;d:e\x7bf:g").lex true).1 = 3 := by cbv
  have h := @parse_append_closings {} rfl _ hlex
  rw [hdepth] at h
  exact ⟨hlex, h⟩

end Sheet
end Stylesheet
