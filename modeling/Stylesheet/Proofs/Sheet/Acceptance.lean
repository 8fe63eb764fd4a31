import Stylesheet.Proofs.Sheet.Grammar
/-!
A strict reader takes exactly the sheets of the grammar. What is being read says what must follow
for no fault to be found (`Reader.Expects`), and each step takes the first token off it. Main
statement: `Sheet.parse_strict_iff_isSheet`.
-/

namespace Stylesheet

open Grammar

/-! ### Declarations -/

-- What must follow in the braces that a clause is in.
def Clause.Expects : Clause → List Placed → Prop
  | .between => IsRules
  | .afterName _ _ => AfterName
  | .value _ _ tokens _ => InValue tokens
  | .skipping | .skippingBlock _ => fun _ => False

-- Whether nothing has been wrong.
def Clause.isSound : Clause → Bool
  | .between | .afterName _ _ => true
  | .value _ _ _ damaged => !damaged
  | .skipping | .skippingBlock _ => false

theorem Grammar.not_braced_false {n : Nat} {ts : List Placed} : ¬Braced (fun _ => False) n ts := by
  rintro ⟨hf, -, -⟩
  exact hf

theorem Grammar.braced_and_iff {p : Prop} {form : List Placed → Prop} {n : Nat} {ts : List Placed} :
    Braced (fun us => p ∧ form us) n ts ↔ p ∧ Braced form n ts := by
  constructor
  · rintro ⟨⟨hp, hf⟩, hc, h⟩
    exact ⟨hp, .intro hf hc h⟩
  · rintro ⟨hp, ⟨hf, hc, h⟩⟩
    exact .intro ⟨hp, hf⟩ hc h

namespace Body

variable {b : Body} {t : Placed} {ts : List Placed} {n : Nat}

theorem faults_endValue_iff {name : String} {position finish : Position} {tokens : List Placed} :
    (b.endValue name position tokens false finish).2 = [] ↔ IsValue tokens := by
  rw [isValue_iff name position finish, endValue]
  cases Declaration.ofTokens name position tokens finish <;> simp

-- A sound body stays sound unless a fault is found.
theorem isSound_step (hs : b.clause.isSound) (hf : (b.step t).faults = []) :
    (b.step t).body.clause.isSound := by
  obtain ⟨done, clause⟩ := b
  obtain ⟨token, position⟩ := t
  cases clause
  case between => cases token <;> simp_all [step, goOn, skip, Clause.isSound]
  case afterName => cases token <;> simp_all [step, goOn, skip, Clause.isSound]
  case value => cases token <;> simp_all [step, goOn, skip, clause_endValue, Clause.isSound]
  case skipping => cases hs
  case skippingBlock => cases hs

-- A token is taken off what must follow, or it is a fault.
theorem expects_cons_iff (hs : b.clause.isSound) : Braced b.clause.Expects n (t :: ts) ↔
    (b.step t).faults = [] ∧ if (b.step t).closed then Levels n ts
      else Braced (b.step t).body.clause.Expects n ts := by
  rw [braced_cons_iff]
  obtain ⟨done, clause⟩ := b
  obtain ⟨token, position⟩ := t
  cases clause
  case between =>
    simp only [Clause.Expects, isRules_cons_iff]
    cases token <;> simp [step, goOn, skip, IsRules.nil, not_braced_false]
  case afterName =>
    simp only [Clause.Expects, afterName_cons_iff]
    cases token <;> simp [step, goOn, skip, afterName_nil, not_braced_false]
  case value name start tokens damaged =>
    cases damaged
    case true => cases hs
    case false =>
      simp only [Clause.Expects, inValue_cons_iff]
      cases token <;> simp [step, goOn, skip, inValue_nil_iff, not_braced_false,
        braced_and_iff, Token.staysIn, faults_endValue_iff, clause_endValue]
  case skipping => cases hs
  case skippingBlock => cases hs

-- No text may end between braces.
theorem faults_endOfText_ne_nil (b : Body) (finish : Position) : (b.endOfText finish).2 ≠ [] := by
  simp [endOfText]

end Body

/-! ### Nodes -/

namespace Reader

variable {r : Reader} {t : Placed} {ts : List Placed} {finish : Position}

-- What must follow for no fault to be found.
def Expects (r : Reader) (ts : List Placed) : Prop :=
  match r.focus with
  | .between => Levels r.frames.length ts
  | .selector _ prelude _ => InPrelude prelude r.frames.length ts
  | .atPrelude name _ _ => InAtPrelude name r.frames.length ts
  | .body _ body => Braced body.clause.Expects r.frames.length ts
  | .skippingBlock _ => False

-- Whether nothing has been wrong.
def isSound (r : Reader) : Bool :=
  match r.focus with
  | .between => true
  | .selector _ _ damaged | .atPrelude _ _ damaged => !damaged
  | .body _ body => body.clause.isSound
  | .skippingBlock _ => false

theorem faults_closeAll_iff {frames : List Frame} {nodes : Sheet Declaration} :
    (closeAll finish frames nodes).2 = [] ↔ frames.length = 0 := by
  cases frames <;> simp [closeAll]

theorem expects_nil_iff (hs : r.isSound) : r.Expects [] ↔ (r.endOfText finish).2 = [] := by
  obtain ⟨frames, nodes, focus⟩ := r
  cases focus
  case between => simp [Expects, endOfText, levels_nil_iff, faults_closeAll_iff]
  case selector => simp [Expects, endOfText, not_inPrelude_nil]
  case atPrelude name prelude damaged =>
    cases damaged
    case true => cases hs
    case false =>
      simp [Expects, endOfText, inAtPrelude_nil_iff, endStatement, append, faults_closeAll_iff]
  case body owner body =>
    have := body.faults_endOfText_ne_nil finish
    simp [Expects, endOfText, not_braced_nil, this]
  case skippingBlock => cases hs

theorem expects_openBlock_iff {start : Position} {prelude : List Token} :
    (r.openBlock start prelude false).2 = [] ∧ (r.openBlock start prelude false).1.Expects ts ↔
      AreSelectors prelude ∧ Braced IsRules r.frames.length ts := by
  rw [openBlock, AreSelectors]
  cases Selector.listOfText (preludeText prelude) <;> simp [Expects, look, Clause.Expects]

theorem isSound_openBlock {start : Position} {prelude : List Token}
    (hf : (r.openBlock start prelude false).2 = []) :
    (r.openBlock start prelude false).1.isSound := by
  rw [openBlock] at hf ⊢
  cases hs : Selector.listOfText (preludeText prelude) <;>
    simp_all [isSound, look, Clause.isSound]

theorem isSound_closeBrace {position : Position} : (r.closeBrace position).1.isSound := by
  unfold closeBrace
  split <;> rfl

theorem expects_closeBrace_iff {position : Position} :
    (r.closeBrace position).2 = [] ∧ (r.closeBrace position).1.Expects ts ↔
      ∃ m, r.frames.length = m + 1 ∧ Levels m ts := by
  obtain ⟨frames, nodes, focus⟩ := r
  cases frames <;> simp [closeBrace, close, Expects]

theorem isSound_selectorStep {start : Position} {prelude : List Token}
    (hf : (r.selectorStep start prelude false t).2 = []) :
    (r.selectorStep start prelude false t).1.isSound := by
  obtain ⟨token, position⟩ := t
  cases token
  case openBrace => exact isSound_openBlock hf
  all_goals simp_all [selectorStep, isSound, look]

-- Within the prelude of a block.
theorem inPrelude_iff_selectorStep {start : Position} {prelude : List Token} :
    InPrelude prelude r.frames.length (t :: ts) ↔
      (r.selectorStep start prelude false t).2 = [] ∧
        (r.selectorStep start prelude false t).1.Expects ts := by
  rw [inPrelude_cons_iff]
  obtain ⟨token, position⟩ := t
  cases token
  case openBrace => simp [selectorStep, expects_openBlock_iff, Token.staysIn]
  all_goals simp [selectorStep, Expects, look, Token.staysIn]

theorem isSound_step (hs : r.isSound) (hf : (r.step t).2 = []) : (r.step t).1.isSound := by
  obtain ⟨frames, nodes, focus⟩ := r
  cases focus
  case between =>
    obtain ⟨token, position⟩ := t
    cases token
    case whitespace | atKeyword => rfl
    case closeBrace => exact isSound_closeBrace
    case semicolon => cases hf
    all_goals exact isSound_selectorStep hf
  case selector start prelude damaged =>
    cases damaged
    case true => cases hs
    case false => exact isSound_selectorStep hf
  case atPrelude name prelude damaged =>
    cases damaged
    case true => cases hs
    case false =>
      obtain ⟨token, position⟩ := t
      cases token
      case closeBrace => exact isSound_closeBrace
      case openBrace =>
        cases hh : holdsDeclarations name <;>
          simp [step, openAtRule, hh, isSound, look, Clause.isSound]
      all_goals rfl
  case body owner body =>
    simp only [step] at hf ⊢
    split
    case isTrue => rfl
    case isFalse => exact body.isSound_step hs hf
  case skippingBlock => cases hs

-- A token is taken off what must follow, or it is a fault.
theorem expects_cons_iff (hs : r.isSound) :
    r.Expects (t :: ts) ↔ (r.step t).2 = [] ∧ (r.step t).1.Expects ts := by
  obtain ⟨frames, nodes, focus⟩ := r
  cases focus
  case between =>
    change Levels frames.length (t :: ts) ↔ _
    cases ht : t.token
    case whitespace => simp [step, ht, levels_blank ht, Expects]
    case atKeyword => simp [step, ht, levels_atKeyword ht, Expects, look]
    case closeBrace =>
      rw [levels_block (by simp [ht]) (by simp [ht]), closes_cons_iff, inPrelude_cons_iff]
      simp [step, ht, expects_closeBrace_iff, Token.staysIn]
    case semicolon =>
      rw [levels_block (by simp [ht]) (by simp [ht]), closes_cons_iff, inPrelude_cons_iff]
      simp [step, ht, Token.staysIn]
    all_goals
      rw [levels_block (by simp [ht]) (by simp [ht]), closes_cons_iff,
        @inPrelude_iff_selectorStep ⟨frames, nodes, .between⟩ t ts t.position]
      simp [step, ht]
  case selector start prelude damaged =>
    cases damaged
    case true => cases hs
    case false => exact @inPrelude_iff_selectorStep ⟨frames, nodes, .selector start prelude false⟩ ..
  case atPrelude name prelude damaged =>
    cases damaged
    case true => cases hs
    case false =>
      change InAtPrelude name frames.length (t :: ts) ↔ _
      rw [inAtPrelude_cons_iff, atRuleEnds_cons_iff, closes_cons_iff]
      obtain ⟨token, position⟩ := t
      cases token
      case openBrace =>
        cases hh : holdsDeclarations name <;>
          simp [step, openAtRule, hh, Expects, look, Clause.Expects, Token.staysIn]
      case closeBrace =>
        simp [step, endStatement, expects_closeBrace_iff, append, Token.staysIn]
      all_goals simp [step, endStatement, Expects, look, append, Token.staysIn]
  case body owner body =>
    refine (Body.expects_cons_iff hs).trans ?_
    simp only [step]
    refine and_congr_right fun _ => ?_
    split
    case isTrue => rfl
    case isFalse => rfl
  case skippingBlock => cases hs

-- No fault is found exactly if what must follow does.
theorem faults_readAll_iff (hs : r.isSound) :
    (r.readAll finish (ts.map .ok)).2 = [] ↔ r.Expects ts := by
  induction ts generalizing r
  case nil => exact (expects_nil_iff hs).symm
  case cons t ts ih =>
    rw [List.map_cons, readAll, List.append_eq_nil_iff, expects_cons_iff hs]
    exact and_congr_right fun hf => ih (isSound_step hs hf)

-- A malformed token is a fault.
theorem exists_of_faults_readAll {results : List Lexed} (h : (r.readAll finish results).2 = []) :
    ∃ ts : List Placed, results = ts.map .ok := by
  induction results generalizing r
  case nil => exact ⟨[], rfl⟩
  case cons result results ih =>
    rw [readAll, List.append_eq_nil_iff] at h
    obtain ⟨ts, rfl⟩ := ih h.2
    cases result
    case error => simp [read] at h
    case ok t => exact ⟨t :: ts, rfl⟩

end Reader

namespace Sheet

theorem ofLexed_strict_iff {settings : Settings} (h : settings.lenient = false)
    (results : List Lexed) (finish : Position) :
    (∃ parsed, ofLexed settings results finish = .ok parsed) ↔
      (Reader.readAll finish {} results).2 = [] := by
  rw [ofLexed_eq]
  cases (Reader.readAll finish {} results).2
  case nil => simp [Settings.report, Except.map]
  case cons => simp [Settings.report_strict_cons h, Except.map]

-- A strict reading succeeds exactly if every token of the text is well-formed and they make a sheet.
theorem parse_strict_iff_isSheet (multibyte : Bool) (text : String) :
    (∃ parsed, parse { lenient := false, multibyte } text = .ok parsed) ↔
      ∃ ts, ((Cursor.ofText text).lex multibyte).1 = ts.map .ok ∧ IsSheet ts := by
  rw [parse_eq, ofLexed_strict_iff rfl]
  have hsheet (ts : List Placed) : Reader.Expects {} ts ↔ IsSheet ts := by
    constructor
    · rintro ⟨hs, ⟨⟩⟩
      rwa [List.append_nil]
    · intro hs
      have := Levels.intro hs .text
      rwa [List.append_nil] at this
  constructor
  · intro h
    obtain ⟨ts, hts⟩ := Reader.exists_of_faults_readAll h
    rw [hts] at h
    exact ⟨ts, hts, (hsheet ts).mp ((Reader.faults_readAll_iff rfl).mp h)⟩
  · rintro ⟨ts, hts, hs⟩
    rw [hts]
    exact (Reader.faults_readAll_iff rfl).mpr ((hsheet ts).mpr hs)

end Sheet
end Stylesheet
