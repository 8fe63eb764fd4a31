import Stylesheet.Proofs.Sheet.Descent.Rules
/-!
The nodes of a descent, and the whole of it. Main statement: `Sheet.descend_eq_parse`.
-/

namespace Stylesheet

open Reader (Leads)

namespace Descent

variable {settings : Settings} {finish : Position} {total : Nat}

variable {t : Placed} {results rest back : List Lexed} {faults es : List Diagnostic}

/-! ### Blocks -/

-- What the prelude of a block comes to.
def TakesPrelude (finish : Position) (results : List Lexed) (faults : List Diagnostic)
    (back : List Lexed) (prelude : List Token) : Option (List Token) → Prop
  | none => ∀ (r : Reader) start damaged,
    (r.look (.selector start prelude damaged)).Leads finish results faults (r.look .between) back
  | some all => ∀ (r : Reader) start damaged,
    (r.look (.selector start prelude damaged)).Leads finish results
      (faults ++ (r.openBlock start all (damaged || !faults.isEmpty)).2)
      (r.openBlock start all (damaged || !faults.isEmpty)).1 back

theorem leads_selector_errors {r : Reader} {start : Position} {prelude : List Token}
    {damaged : Bool} (es : List Diagnostic) :
    (r.look (.selector start prelude damaged)).Leads finish (es.map .error ++ rest) es
      (r.look (.selector start prelude (damaged || !es.isEmpty))) rest :=
  .of_damaging (fun damaged => r.look (.selector start prelude damaged)) (fun _ => rfl) es

-- A token of the prelude in front of the rest of it.
theorem TakesPrelude.cons {prelude : List Token} {a} (hs : t.token.staysIn)
    (h : TakesPrelude finish rest faults back (prelude ++ [t.token]) a) (es : List Diagnostic) :
    TakesPrelude finish (es.map .error ++ .ok t :: rest) (es ++ faults) back prelude a := by
  have hstep (r : Reader) (start : Position) (damaged : Bool) :
      (r.look (.selector start prelude damaged)).Leads finish (es.map .error ++ .ok t :: rest) es
        (r.look (.selector start (prelude ++ [t.token]) (damaged || !es.isEmpty))) rest := by
    have hone : (r.look (.selector start prelude (damaged || !es.isEmpty))).Leads finish
        (.ok t :: rest) []
        (r.look (.selector start (prelude ++ [t.token]) (damaged || !es.isEmpty))) rest := by
      refine .of_step ?_
      obtain ⟨token, place⟩ := t
      cases token
      case semicolon | openBrace | closeBrace => cases hs
      all_goals rfl
    simpa using (leads_selector_errors es).trans hone
  cases a
  case none => exact fun r start damaged => (hstep ..).trans (h r start _)
  case some =>
    intro r start damaged
    rw [isEmpty_append, List.append_assoc]
    exact (hstep ..).trans (h r start _)

-- What reading a prelude comes to, which leaves no more than so much.
def ReadsPrelude (settings : Settings) (finish : Position) (total : Nat) (results : List Lexed)
    (prelude : List Token) (cost : Int) (most : Nat) : Prop :=
  ∃ a faults back, Descends settings finish total (blockPrelude settings prelude) results cost a
    faults back ∧ back.length ≤ most ∧ TakesPrelude finish results faults back prelude a

-- A token that closes nothing is taken.
theorem readsPrelude_cons {prelude : List Token} (ht : t.token ≠ .closeBrace)
    (h : ReadsPrelude settings finish total rest (prelude ++ [t.token]) 2 rest.length) :
    ReadsPrelude settings finish total (es.map .error ++ .ok t :: rest) prelude (-11)
      rest.length := by
  obtain ⟨token, position⟩ := t
  cases token
  case closeBrace => contradiction
  case semicolon =>
    refine ⟨none, es ++ ([] ++ [.atToken (.expectedBlock (Reader.trimmedText prelude)) position]),
      rest, ?_, Nat.le_refl _, fun r start damaged => ?_⟩
    · exact .weaken (.ahead_cons (fun _ => rfl) rfl fun _ => .bind descends_next (.returns (descends_recover _) _))
        (by simp) rfl
    · exact (leads_selector_errors es).trans (.of_step rfl)
  case openBrace =>
    refine ⟨some prelude, es ++ [], rest, ?_, Nat.le_refl _, fun r start damaged => ?_⟩
    · exact .weaken (.ahead_cons (fun _ => rfl) rfl fun _ => .returns descends_next _) (by simp) rfl
    · rw [List.append_nil]
      exact (leads_selector_errors es).trans (.of_step rfl)
  all_goals
    obtain ⟨a, faults, back, hd, hl, hr⟩ := h
    refine ⟨a, es ++ ([] ++ faults), back, ?_, hl, hr.cons rfl es⟩
    exact .weaken (.ahead_cons (fun _ => rfl) rfl fun hle =>
      .bind descends_next (.again length_lt_errors hle hd)) (by simp) rfl

theorem readsPrelude (results : List Lexed) (prelude : List Token) :
    ReadsPrelude settings finish total results prelude 2 results.length := by
  induction results using tokens_induction generalizing prelude
  case h₁ es =>
    refine ⟨none, es ++ [.atToken (.expectedBlock (Reader.trimmedText prelude)) finish], [], ?_,
      by simp, fun r start damaged => ?_⟩
    · exact .weaken (.ahead_nil (fun _ => rfl) es fun _ => .returns (descends_recover _) _) (by simp) rfl
    · have hend (damaged : Bool) : (r.look (.selector start prelude damaged)).Leads finish []
          [.atToken (.expectedBlock (Reader.trimmedText prelude)) finish] (r.look .between) [] :=
        .of_endOfText rfl
      have := (@leads_selector_errors finish [] r start prelude damaged es).trans (hend _)
      rwa [List.append_nil] at this
  case h₂ es t rest ih =>
    by_cases ht : t.token = .closeBrace
    case pos =>
      obtain ⟨token, position⟩ := t
      subst ht
      refine ⟨none, es ++ [.atToken (.expectedBlock (Reader.trimmedText prelude)) position],
        .ok ⟨.closeBrace, position⟩ :: rest, ?_, length_le_errors, fun r start damaged => ?_⟩
      · exact .weaken (.ahead_cons (fun _ => rfl) rfl fun _ => .returns (descends_recover _) _) (by simp) rfl
      · exact (leads_selector_errors es).trans (.of_step_eq rfl)
    case neg =>
      obtain ⟨a, faults, back, hd, hl, hr⟩ :=
        @readsPrelude_cons settings finish total t rest es prelude ht (ih rest (Nat.le_refl _) _)
      exact ⟨a, faults, back, hd.weaken (by simp) rfl, hl.trans (Nat.le_of_lt length_lt_errors), hr⟩

-- A reader behind a node, or behind none.
def behind (r : Reader) (n : Option (Node Declaration)) : Reader :=
  ⟨r.frames, r.nodes ++ n.toList, .between⟩

theorem behind_none (r : Reader) : behind r none = r.look .between := by
  simp [behind, Reader.look]

theorem leads_block (hb : t.token ≠ .whitespace) (hs : t.token ≠ .semicolon)
    (hc : t.token ≠ .closeBrace) (hk : ∀ name, t.token ≠ .atKeyword name) (r : Reader) :
    (r.look .between).Leads finish (.ok t :: rest) []
      (r.look (.selector t.position [] false)) (.ok t :: rest) := by
  refine .of_step_eq ?_
  obtain ⟨token, position⟩ := t
  cases token
  case whitespace | semicolon | closeBrace => contradiction
  case atKeyword name => exact absurd rfl (hk name)
  all_goals rfl

-- What a block comes to.
def ReadsBlock (settings : Settings) (finish : Position) (total : Nat) (t : Placed)
    (rest : List Lexed) : Prop :=
  ∃ n faults back, Descends settings finish total (block settings) (.ok t :: rest) (-6) n faults
    back ∧ back.length ≤ rest.length ∧ ∀ r : Reader,
      (r.look .between).Leads finish (.ok t :: rest) faults (behind r n) back

section

variable {prelude : List Token} {middle : List Lexed} (hl : middle.length ≤ rest.length)
  (hstart : ∀ r : Reader, (r.look .between).Leads finish (.ok t :: rest) []
    (r.look (.selector t.position [] false)) (.ok t :: rest))

include hl hstart

-- No brace opens it.
theorem readsBlock_of_none
    (hd : Descends settings finish total (blockPrelude settings []) (.ok t :: rest) (-11) none faults
      middle)
    (hr : TakesPrelude finish (.ok t :: rest) faults middle [] none) :
    ReadsBlock settings finish total t rest := by
  refine ⟨none, [] ++ faults, middle, .weaken (.bind descends_peek_cons
    (.bind hd.watch .pure)) (by simp) (by simp), hl, fun r => ?_⟩
  rw [behind_none]
  exact (hstart r).trans (hr r _ _)

-- Its prelude is damaged, and what is behind the brace is skipped.
theorem readsBlock_of_damaged {fault : Diagnostic}
    (hd : Descends settings finish total (blockPrelude settings []) (.ok t :: rest) (-11)
      (some prelude) (fault :: faults) middle)
    (hr : TakesPrelude finish (.ok t :: rest) (fault :: faults) middle [] (some prelude)) :
    ReadsBlock settings finish total t rest := by
  obtain ⟨skipped, back, hskip, hback, hleads⟩ := @descends_skipBlock settings finish total 0 middle
  refine ⟨none, [] ++ (fault :: faults ++ skipped), back, .weaken (.bind descends_peek_cons
    (.bind hd.watch (.returns hskip _))) (by simp) rfl, hback.trans hl, fun r => ?_⟩
  have hopen : (r.look (.selector t.position [] false)).Leads finish (.ok t :: rest)
      (fault :: faults) (r.look (.skippingBlock 0)) middle := by
    simpa [Reader.openBlock] using hr r t.position false
  rw [behind_none]
  exact (hstart r).trans (hopen.trans (hleads _ _ (Reader.skips_block finish r)))

-- Its prelude is no list of selectors.
theorem readsBlock_of_refused {refusal : Selector.Refusal}
    (hd : Descends settings finish total (blockPrelude settings []) (.ok t :: rest) (-11)
      (some prelude) [] middle)
    (hr : TakesPrelude finish (.ok t :: rest) [] middle [] (some prelude))
    (hv : Selector.listOfText (Reader.preludeText prelude) = .error refusal) :
    ReadsBlock settings finish total t rest := by
  obtain ⟨skipped, back, hskip, hback, hleads⟩ := @descends_skipBlock settings finish total 0 middle
  have hx : Descends settings finish total (block settings) (.ok t :: rest) (1 + (-11 + 2)) none
      ([] ++ ([] ++ ([.atToken (.invalidSelector refusal) t.position] ++ skipped))) back := by
    refine .bind descends_peek_cons (.bind hd.watch ?_)
    simp only [List.isEmpty_nil, Bool.not_true, hv]
    exact .weaken (.bind (descends_recover _) (.returns hskip _)) (by simp) (by simp)
  refine ⟨none, _, back, hx.weaken (by simp) rfl, hback.trans hl, fun r => ?_⟩
  have hskips := hleads _ _ (Reader.skips_block finish r)
  have := ((hstart r).trans (hr r t.position false)).trans (show Leads finish _ _ skipped _ back by
    simpa [Reader.openBlock, hv] using hskips)
  rw [behind_none]
  simpa [Reader.openBlock, hv] using this

theorem readsBlock_of_selectors {selectors : List Selector}
    (hd : Descends settings finish total (blockPrelude settings []) (.ok t :: rest) (-11)
      (some prelude) [] middle)
    (hr : TakesPrelude finish (.ok t :: rest) [] middle [] (some prelude))
    (hv : Selector.listOfText (Reader.preludeText prelude) = .ok selectors) :
    ReadsBlock settings finish total t rest := by
  obtain ⟨rules, missed, back, hrules, hback, hleads⟩ :=
    @descends_declarations settings finish total middle []
  have hx : Descends settings finish total (block settings) (.ok t :: rest) (1 + (-11 + 4))
      (some (.block ⟨selectors, rules, t.position.line⟩)) ([] ++ ([] ++ missed)) back := by
    refine .bind descends_peek_cons (.bind hd.watch ?_)
    simp only [List.isEmpty_nil, Bool.not_true, hv]
    exact .weaken (.returns hrules _) (by simp) (by simp)
  refine ⟨some _, _, back, hx.weaken (by simp) rfl, hback.trans hl, fun r => ?_⟩
  have := ((hstart r).trans (hr r t.position false)).trans (show Leads finish _ _ missed _ back by
    simpa [Reader.openBlock, hv, Reader.inside] using hleads r (.block selectors t.position.line))
  simpa [Reader.openBlock, hv, behind, Reader.append, Owner.node] using this

end

theorem descends_block (hb : t.token ≠ .whitespace) (hs : t.token ≠ .semicolon)
    (hc : t.token ≠ .closeBrace) (hk : ∀ name, t.token ≠ .atKeyword name) :
    ReadsBlock settings finish total t rest := by
  obtain ⟨a, faults, middle, hd, hl, hr⟩ :=
    @readsPrelude_cons settings finish total t rest [] [] hc (readsPrelude rest _)
  have hstart := @leads_block finish t rest hb hs hc hk
  cases a
  case none => exact readsBlock_of_none hl hstart hd hr
  case some prelude =>
    cases faults
    case cons => exact readsBlock_of_damaged hl hstart hd hr
    case nil =>
      cases hv : Selector.listOfText (Reader.preludeText prelude)
      case error => exact readsBlock_of_refused hl hstart hd hr hv
      case ok => exact readsBlock_of_selectors hl hstart hd hr hv

/-! ### At-rules -/

-- What the prelude of an at-rule comes to.
def TakesAtPrelude (finish : Position) (results : List Lexed) (faults : List Diagnostic)
    (back : List Lexed) (name : String) (prelude : List Token) (a : List Token × Bool) : Prop :=
  ∀ (r : Reader) damaged, (r.look (.atPrelude name prelude damaged)).Leads finish results faults
    (if a.2 then r.openAtRule name a.1 (damaged || !faults.isEmpty)
      else r.endStatement name a.1 (damaged || !faults.isEmpty)) back

theorem leads_atPrelude_errors {r : Reader} {name : String} {prelude : List Token}
    {damaged : Bool} (es : List Diagnostic) :
    (r.look (.atPrelude name prelude damaged)).Leads finish (es.map .error ++ rest) es
      (r.look (.atPrelude name prelude (damaged || !es.isEmpty))) rest :=
  .of_damaging (fun damaged => r.look (.atPrelude name prelude damaged)) (fun _ => rfl) es

theorem TakesAtPrelude.errors {name : String} {prelude : List Token} {a} {middle : List Lexed}
    (h : TakesAtPrelude finish middle faults back name prelude a) (es : List Diagnostic) :
    TakesAtPrelude finish (es.map .error ++ middle) (es ++ faults) back name prelude a := by
  intro r damaged
  rw [isEmpty_append]
  exact (leads_atPrelude_errors es).trans (h r _)

theorem TakesAtPrelude.of_nil {name : String} {prelude : List Token} :
    TakesAtPrelude finish [] [] [] name prelude (prelude, false) := by
  intro r damaged
  refine .of_endOfText ?_
  cases damaged <;> rfl

theorem TakesAtPrelude.cons {name : String} {prelude : List Token} {a} (hs : t.token.staysIn)
    (h : TakesAtPrelude finish rest faults back name (prelude ++ [t.token]) a) (es : List Diagnostic) :
    TakesAtPrelude finish (es.map .error ++ .ok t :: rest) (es ++ faults) back name prelude a := by
  refine TakesAtPrelude.errors (fun r damaged => ?_) es
  have hone : (r.look (.atPrelude name prelude damaged)).Leads finish (.ok t :: rest) []
      (r.look (.atPrelude name (prelude ++ [t.token]) damaged)) rest := by
    refine .of_step ?_
    obtain ⟨token, place⟩ := t
    cases token
    case semicolon | openBrace | closeBrace => cases hs
    all_goals rfl
  exact hone.trans (h r damaged)

theorem TakesAtPrelude.of_semicolon {name : String} {prelude : List Token} {position : Position} :
    TakesAtPrelude finish (.ok ⟨.semicolon, position⟩ :: rest) [] rest name prelude
      (prelude, false) := by
  intro r damaged
  refine .of_step ?_
  cases damaged <;> rfl

theorem TakesAtPrelude.of_openBrace {name : String} {prelude : List Token} {position : Position} :
    TakesAtPrelude finish (.ok ⟨.openBrace, position⟩ :: rest) [] rest name prelude
      (prelude, true) := by
  intro r damaged
  refine .of_step ?_
  cases damaged <;> rfl

theorem TakesAtPrelude.of_closeBrace {name : String} {prelude : List Token} {position : Position} :
    TakesAtPrelude finish (.ok ⟨.closeBrace, position⟩ :: rest) []
      (.ok ⟨.closeBrace, position⟩ :: rest) name prelude (prelude, false) := by
  intro r damaged
  refine .of_step_eq ?_
  cases damaged <;> rfl

theorem descends_atPrelude (results : List Lexed) (name : String) (prelude : List Token) :
    ∃ a faults back, Descends settings finish total (atPrelude settings prelude) results 2 a faults
      back ∧ back.length ≤ results.length ∧
        TakesAtPrelude finish results faults back name prelude a := by
  induction results using tokens_induction generalizing prelude
  case h₁ es =>
    refine ⟨(prelude, false), es ++ [], [], ?_, by simp, ?_⟩
    · exact .weaken (.ahead_nil (fun _ => rfl) es fun _ => .pure) (by simp) rfl
    · simpa using TakesAtPrelude.of_nil.errors es
  case h₂ es t rest ih =>
    have hlt := Nat.le_of_lt (@length_lt_errors t rest es)
    obtain ⟨token, position⟩ := t
    cases token
    case closeBrace =>
      refine ⟨(prelude, false), es ++ [], .ok ⟨.closeBrace, position⟩ :: rest, ?_, length_le_errors,
        TakesAtPrelude.of_closeBrace.errors es⟩
      exact .weaken (.ahead_cons (fun _ => rfl) rfl fun _ => .pure) (by simp) rfl
    case semicolon =>
      refine ⟨(prelude, false), es ++ [], rest, ?_, hlt,
        TakesAtPrelude.of_semicolon.errors es⟩
      exact .weaken (.ahead_cons (fun _ => rfl) rfl fun _ => .returns descends_next _) (by simp) rfl
    case openBrace =>
      refine ⟨(prelude, true), es ++ [], rest, ?_, hlt,
        TakesAtPrelude.of_openBrace.errors es⟩
      exact .weaken (.ahead_cons (fun _ => rfl) rfl fun _ => .returns descends_next _) (by simp) rfl
    all_goals
      obtain ⟨a, faults, back, hd, hl, hr⟩ := ih rest (Nat.le_refl _) (prelude ++ [_])
      refine ⟨a, es ++ ([] ++ faults), back, ?_, hl.trans hlt, ?_⟩
      · exact .weaken (.ahead_cons (fun _ => rfl) rfl fun hle =>
          .bind descends_next (.again length_lt_errors hle hd)) (by simp) rfl
      · exact hr.cons rfl es

/-! ### Nodes -/

-- What nodes come to, in an at-rule or in none.
def TakesNodes (finish : Position) (results : List Lexed) (faults : List Diagnostic)
    (back : List Lexed) (done all : Sheet Declaration) : Bool → Prop
  | true => ∀ frame frames, Leads finish ⟨frame :: frames, done, .between⟩ results faults
      (Reader.close ⟨frame :: frames, all, .between⟩ frame frames) back
  | false => back = [] ∧ Leads finish ⟨[], done, .between⟩ results faults ⟨[], all, .between⟩ []

def ReadsNodes (settings : Settings) (finish : Position) (total : Nat) (nested : Bool)
    (results : List Lexed) (done : Sheet Declaration) : Prop :=
  ∃ all faults back, Descends settings finish total (nodes settings nested done) results 4 all faults
    back ∧ back.length ≤ results.length ∧ TakesNodes finish results faults back done all nested

-- What an at-rule comes to behind its name.
def ReadsAtRule (settings : Settings) (finish : Position) (total : Nat) (results : List Lexed)
    (name : String) : Prop :=
  ∃ n faults back, Descends settings finish total
    (fun limit => atRule settings (nodes settings true [] limit) name limit) results 6 n faults
    back ∧ back.length ≤ results.length ∧ ∀ r : Reader,
      (r.look (.atPrelude name [] false)).Leads finish results faults (behind r n) back

variable {name : String} {prelude : List Token} {middle : List Lexed}

-- No brace opens it.
theorem readsAtRule_of_statement
    (hd : Descends settings finish total (atPrelude settings []) results 2 (prelude, false) faults
      middle) (hl : middle.length ≤ results.length)
    (hr : TakesAtPrelude finish results faults middle name [] (prelude, false)) :
    ReadsAtRule settings finish total results name := by
  have hstart (r : Reader) := hr r false
  cases faults
  case cons fault faults =>
    refine ⟨none, fault :: faults ++ [], middle, ?_, hl, fun r => ?_⟩
    · exact .weaken (.bind hd.watch .pure) (by simp) rfl
    · rw [behind_none, List.append_nil]
      simpa [Reader.endStatement] using hstart r
  case nil =>
    refine ⟨some (.atStatement name (Reader.trimmedText prelude)), [] ++ [], middle, ?_, hl,
      fun r => ?_⟩
    · exact .weaken (.bind hd.watch .pure) (by simp) rfl
    · simpa [Reader.endStatement, behind, Reader.append] using hstart r

-- It is not kept, and its block is skipped.
theorem readsAtRule_of_refused {fault : Diagnostic}
    (hd : Descends settings finish total (atPrelude settings []) results 2 (prelude, true)
      (fault :: faults) middle) (hl : middle.length ≤ results.length)
    (hr : TakesAtPrelude finish results (fault :: faults) middle name [] (prelude, true)) :
    ReadsAtRule settings finish total results name := by
  obtain ⟨skipped, back, hskip, hback, hleads⟩ :=
    @descends_skipBlock settings finish total 0 middle
  refine ⟨none, fault :: faults ++ skipped, back, ?_, hback.trans hl, fun r => ?_⟩
  · exact .weaken (.bind hd.watch (.returns hskip _)) (by simp) rfl
  · rw [behind_none]
    have hopen : (r.look (.atPrelude name [] false)).Leads finish results (fault :: faults)
        (r.look (.skippingBlock 0)) middle := by
      simpa [Reader.openAtRule] using hr r false
    exact hopen.trans (hleads _ _ (Reader.skips_block finish r))

theorem readsAtRule_of_declarations
    (hd : Descends settings finish total (atPrelude settings []) results 2 (prelude, true) []
      middle) (hl : middle.length ≤ results.length)
    (hr : TakesAtPrelude finish results [] middle name [] (prelude, true))
    (hh : holdsDeclarations name) : ReadsAtRule settings finish total results name := by
  obtain ⟨rules, missed, back, hrules, hback, hleads⟩ :=
    @descends_declarations settings finish total middle []
  have hx : Descends settings finish total
      (fun limit => atRule settings (nodes settings true [] limit) name limit) results (2 + 4)
      (some (.atSet name (Reader.trimmedText prelude) rules)) ([] ++ missed) back := by
    refine .bind hd.watch ?_
    simp only [List.isEmpty_nil, Bool.not_true, hh, ↓reduceIte]
    exact .weaken (.returns hrules _) (by simp) (by simp)
  refine ⟨some _, _, back, hx, hback.trans hl, fun r => ?_⟩
  have hopen : r.openAtRule name prelude false =
      r.inside (.atRule name (Reader.trimmedText prelude)) ⟨[], .between⟩ := by
    simp [Reader.openAtRule, hh, Reader.inside]
  have := hr r false
  simp only [↓reduceIte, List.isEmpty_nil, Bool.not_true, Bool.or_self, hopen] at this
  exact this.trans (hleads r _)

theorem readsAtRule_of_nodes
    (hd : Descends settings finish total (atPrelude settings []) results 2 (prelude, true) []
      middle) (hl : middle.length ≤ results.length)
    (hr : TakesAtPrelude finish results [] middle name [] (prelude, true))
    (hh : holdsDeclarations name = false) (hn : ReadsNodes settings finish total true middle []) :
    ReadsAtRule settings finish total results name := by
  obtain ⟨contents, missed, back, hnodes, hback, hleads⟩ := hn
  have hx : Descends settings finish total
      (fun limit => atRule settings (nodes settings true [] limit) name limit) results (2 + 4)
      (some (.atBlock name (Reader.trimmedText prelude) contents)) ([] ++ missed) back := by
    refine .bind hd.watch ?_
    simp only [List.isEmpty_nil, Bool.not_true, hh, Bool.false_eq_true, ↓reduceIte]
    exact .weaken (.returns hnodes _) (by simp) (by simp)
  refine ⟨some _, _, back, hx, hback.trans hl, fun r => ?_⟩
  have hopen : r.openAtRule name prelude false =
      ⟨⟨name, Reader.trimmedText prelude, r.nodes⟩ :: r.frames, [], .between⟩ := by
    simp [Reader.openAtRule, hh]
  have := hr r false
  simp only [↓reduceIte, List.isEmpty_nil, Bool.not_true, Bool.or_self, hopen] at this
  exact this.trans (hleads _ _)

theorem descends_atRule (results : List Lexed) (name : String) (ih : ∀ middle : List Lexed,
    middle.length ≤ results.length → ReadsNodes settings finish total true middle []) :
    ReadsAtRule settings finish total results name := by
  obtain ⟨⟨prelude, opens⟩, faults, middle, hd, hl, hr⟩ :=
    @descends_atPrelude settings finish total results name []
  cases opens
  case false => exact readsAtRule_of_statement hd hl hr
  case true =>
    cases faults
    case cons => exact readsAtRule_of_refused hd hl hr
    case nil =>
      cases hh : holdsDeclarations name
      case true => exact readsAtRule_of_declarations hd hl hr hh
      case false => exact readsAtRule_of_nodes hd hl hr hh (ih middle hl)

theorem rests_nodes {frames : List Frame} {done : Sheet Declaration} :
    Reader.Rests ⟨frames, done, .between⟩ where
  damage := rfl
  blank t ht := by simp [Reader.step, ht]

-- What is done first in front of the rest of the nodes.
theorem TakesNodes.of_leads {results middle : List Lexed} {found : List Diagnostic}
    {done done' all : Sheet Declaration} {nested : Bool}
    (h : ∀ frames, nested = !frames.isEmpty →
      Leads finish ⟨frames, done, .between⟩ results found ⟨frames, done', .between⟩ middle)
    (hr : TakesNodes finish middle faults back done' all nested) :
    TakesNodes finish results (found ++ faults) back done all nested := by
  cases nested
  case true => exact fun frame frames => (h (frame :: frames) rfl).trans (hr frame frames)
  case false => exact ⟨hr.1, (h [] rfl).trans hr.2⟩

-- At the end of the text.
theorem readsNodes_end {found : List Diagnostic} {done : Sheet Declaration} (nested : Bool)
    (hws : Descends settings finish total (skipWhitespace settings) results 2 () found [])
    (hl : ([] : List Lexed).length ≤ results.length)
    (hstart : ∀ frames, nested = !frames.isEmpty →
      Leads finish ⟨frames, done, .between⟩ results found ⟨frames, done, .between⟩ []) :
    ReadsNodes settings finish total nested results done := by
  cases nested
  case true =>
    refine ⟨done, found ++ [.atToken .unterminatedBlock finish], [], ?_, hl,
      .of_leads hstart fun frame frames => .of_endOfText rfl⟩
    exact .weaken (.loop (fun _ => rfl) fun _ => .bind hws (.bind descends_peek_nil
      (.returns (descends_recover _) _))) (by simp) (by simp)
  case false =>
    refine ⟨done, found ++ [], [], ?_, hl, .of_leads hstart ⟨rfl, .refl⟩⟩
    exact .weaken (.loop (fun _ => rfl) fun _ => .bind hws (.bind descends_peek_nil .pure))
      (by simp) (by simp)

theorem readsNodes (nested : Bool) (results : List Lexed) (done : Sheet Declaration) :
    ReadsNodes settings finish total nested results done := by
  induction hn : results.length using Nat.strongRecOn generalizing nested results done
  case ind n ih =>
    subst hn
    obtain ⟨found, middle, hws, hl, hm, hr⟩ := @descends_skipWhitespace settings finish total results
    have hstart (frames : List Frame) := hr _ (@rests_nodes frames done)
    rcases hm with rfl | ⟨⟨token, position⟩, rest, rfl, hb⟩
    · exact readsNodes_end nested hws hl fun frames _ => hstart frames
    · have hlt : rest.length < results.length := hl
      -- What is done behind one more node, or none.
      have hgo (n : Option (Node Declaration)) (middle : List Lexed)
          (hmiddle : middle.length ≤ rest.length) :=
        ih middle.length (Nat.lt_of_le_of_lt hmiddle hlt) nested middle (done ++ n.toList) rfl
      cases token
      case whitespace => simp at hb
      case closeBrace =>
        cases nested
        case true =>
          refine ⟨done, found ++ [], rest, ?_, Nat.le_of_lt hlt,
            .of_leads (fun frames _ => hstart frames) fun frame frames => .of_step rfl⟩
          exact .weaken (.loop (fun _ => rfl) fun _ => .bind hws (.bind descends_peek_cons
            (.returns descends_next _))) (by simp) (by simp)
        case false =>
          obtain ⟨all, faults, back, hd, hback, hr⟩ := hgo none rest (Nat.le_refl _)
          rw [Option.toList_none, List.append_nil] at hd hr
          refine ⟨all, found ++ ([.atToken .unmatchedBrace position] ++ faults), back, ?_,
            hback.trans (Nat.le_of_lt hlt), ?_⟩
          · exact .weaken (.loop (fun _ => rfl) fun hle => .bind hws (.bind descends_peek_cons
              (.bind descends_next (.bind (descends_recover _) (.again hlt hle hd))))) (by simp)
              (by simp)
          · refine .of_leads (fun frames _ => hstart frames) (.of_leads (fun frames hf => ?_) hr)
            obtain rfl : frames = [] := by simpa using hf
            exact .of_step rfl
      case semicolon =>
        obtain ⟨all, faults, back, hd, hback, hr⟩ := hgo none rest (Nat.le_refl _)
        rw [Option.toList_none, List.append_nil] at hd hr
        refine ⟨all, found ++ ([.atToken .unexpectedSemicolon position] ++ faults), back, ?_,
          hback.trans (Nat.le_of_lt hlt), ?_⟩
        · exact .weaken (.loop (fun _ => rfl) fun hle => .bind hws (.bind descends_peek_cons
            (.bind descends_next (.bind (descends_recover _) (.again hlt hle hd))))) (by simp) (by simp)
        · exact .of_leads (fun frames _ => hstart frames) (.of_leads (fun frames _ => .of_step rfl) hr)
      case atKeyword name =>
        obtain ⟨n, missed, middle, hone, hmiddle, hleads⟩ :=
          @descends_atRule settings finish total rest (Text.lower name) fun middle hm =>
            ih middle.length (Nat.lt_of_le_of_lt hm hlt) true middle [] rfl
        obtain ⟨all, faults, back, hd, hback, hr⟩ := hgo n middle hmiddle
        refine ⟨all, found ++ (missed ++ faults), back, ?_,
          hback.trans (hmiddle.trans (Nat.le_of_lt hlt)), ?_⟩
        · exact .weaken (.loop (fun _ => rfl) fun hle => .bind hws (.bind descends_peek_cons (.bind descends_next
            (.bind hone (.again (Nat.lt_of_le_of_lt hmiddle hlt) hle hd))))) (by simp) (by simp)
        · refine .of_leads (fun frames _ => hstart frames) (.of_leads (fun frames _ => ?_) hr)
          exact (@Reader.Leads.of_step _ _ _ _ [] _ rfl).trans (hleads ⟨frames, done, .between⟩)
      all_goals
        obtain ⟨n, missed, middle, hone, hmiddle, hleads⟩ :=
          @descends_block settings finish total ⟨_, position⟩ rest hb (by simp) (by simp) (by simp)
        obtain ⟨all, faults, back, hd, hback, hr⟩ := hgo n middle hmiddle
        refine ⟨all, found ++ (missed ++ faults), back, ?_,
          hback.trans (hmiddle.trans (Nat.le_of_lt hlt)), ?_⟩
        · exact .weaken (.loop (fun _ => rfl) fun hle => .bind hws (.bind descends_peek_cons
            (.bind hone (.again (Nat.lt_of_le_of_lt hmiddle hlt) hle hd)))) (by simp) (by simp)
        · refine .of_leads (fun frames _ => hstart frames) (.of_leads (fun frames _ => ?_) hr)
          exact hleads ⟨frames, done, .between⟩

end Descent

/-! ### Texts -/

namespace Sheet

-- A descent does not come to a limit that is above its rounds. None of these is idle, there are no
-- more than the length of the text allows, and what is read is what a reader reads.
theorem descend_eq_parse (settings : Settings) (text : String) : ∃ d : Descent, d.idle = 0 ∧
    d.rounds ≤ 16 * text.length + 4 ∧ d.taken ≤ text.length ∧ ∀ limit, d.rounds < limit →
      descend settings text limit = some ((parse settings text).map fun parsed => (parsed, d)) := by
  have hlength : ((Cursor.ofText text).lex settings.multibyte).1.length ≤ text.length :=
    (Cursor.lex_length_le ..).trans (Text.unifyLineEnds_length_le text.toList)
  rw [parse_eq, ofLexed_eq]
  generalize hlex : (Cursor.ofText text).lex settings.multibyte = lexed at hlength ⊢
  obtain ⟨results, finish⟩ := lexed
  obtain ⟨all, faults, back, hd, -, rfl, hr⟩ :=
    @Descent.readsNodes settings finish results.length false results []
  obtain ⟨d, hat, hw, hi, -, hrounds, hrun⟩ :=
    hd { lexer := .ofText settings.multibyte text } ⟨.fresh hlex, Nat.zero_add _⟩
  have hread : Reader.readAll finish {} results = (all, faults ++ []) := hr
  have htaken := hat.taken
  refine ⟨d, hi, ?_, ?_, fun limit hlimit => ?_⟩
  · simp only [List.length_nil] at hrounds hlength
    omega
  · simp only [List.length_nil] at htaken hlength
    omega
  · rw [descend, hrun limit (by simpa using hlimit), hread, List.append_nil]
    cases hreport : settings.report [] faults
    case error => simp [Except.map]
    case ok warnings =>
      rw [Settings.eq_append_of_report hreport, ← hw]
      simp [Except.map]

-- A lenient descent ends with a result, whatever the text.
theorem descend_lenient {settings : Settings} (h : settings.lenient) (text : String) :
    ∃ (parsed : Parsed) (d : Descent), parse settings text = .ok parsed ∧ d.idle = 0 ∧
      d.rounds ≤ 16 * text.length + 4 ∧ d.taken ≤ text.length ∧
      ∀ limit, d.rounds < limit → descend settings text limit = some (.ok (parsed, d)) := by
  obtain ⟨d, hidle, hrounds, htaken, hd⟩ := descend_eq_parse settings text
  have hparse := ofLexed_eq settings ((Cursor.ofText text).lex settings.multibyte).1
    ((Cursor.ofText text).lex settings.multibyte).2
  rw [← parse_eq, Settings.report_lenient h] at hparse
  rw [hparse] at hd ⊢
  exact ⟨_, d, rfl, hidle, hrounds, htaken, hd⟩

-- A text in which hardly anything is as it should be.
theorem descend_lenient_malformed : ({} : Settings).lenient ∧
    ∃ (parsed : Parsed) (d : Descent), parse {} "a;\x7d@b\x7bc:\x7b'" = .ok parsed ∧ d.idle = 0 ∧
      d.rounds ≤ 164 ∧ d.taken ≤ 10 ∧
      ∀ limit, d.rounds < limit → descend {} "a;\x7d@b\x7bc:\x7b'" limit = some (.ok (parsed, d)) :=
  ⟨rfl, descend_lenient rfl _⟩

end Sheet
end Stylesheet
