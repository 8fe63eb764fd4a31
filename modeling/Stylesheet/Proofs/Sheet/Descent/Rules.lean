import Stylesheet.Proofs.Sheet.Bodies
import Stylesheet.Proofs.Sheet.Descent.Tokens
/-!
The declarations of a descent. For each loop, the results it leaves are what a reader goes on with
(`Reader.Leads`), and the faults are the same. Main statement: `Descent.descends_declarations`.
-/

namespace Stylesheet

/-! ### Readers that skip -/

namespace Reader

variable {r : Reader}

-- A reader that white space and malformed tokens leave as it is.
structure Rests (r : Reader) : Prop where
  damage : r.damage = r
  blank : ∀ t : Placed, t.token = .whitespace → r.step t = (r, [])

-- Readers that skip so many more braced blocks, up to one that goes on.
structure Skips (finish : Position) (skipping : Nat → Reader) (r : Reader) : Prop where
  damage : ∀ n, (skipping n).damage = skipping n
  opens : ∀ n (t : Placed), t.token = .openBrace → (skipping n).step t = (skipping (n + 1), [])
  closes : ∀ n (t : Placed), t.token = .closeBrace →
    (skipping n).step t = (if n = 0 then r else skipping (n - 1), [])
  passes : ∀ n (t : Placed), t.token ≠ .openBrace → t.token ≠ .closeBrace →
    (skipping n).step t = (skipping n, [])
  ends : ∀ n, (skipping n).endOfText finish = r.endOfText finish

theorem skips_block (finish : Position) (r : Reader) :
    Skips finish (fun n => r.look (.skippingBlock n)) (r.look .between) where
  damage _ := rfl
  opens n t ht := by simp [step, look, ht]
  closes n t ht := by by_cases hn : n = 0 <;> simp [step, look, ht, hn]
  passes n t ho hc := by
    obtain ⟨token, position⟩ := t
    cases token <;> first | rfl | contradiction
  ends _ := rfl

theorem skips_body (finish : Position) (r : Reader) (owner : Owner) (done : List Declaration) :
    Skips finish (fun n => r.inside owner ⟨done, .skippingBlock n⟩)
      (r.inside owner ⟨done, .between⟩) where
  damage _ := rfl
  opens n t ht := by simp [step, look, inside, Body.step, Body.goOn, ht]
  closes n t ht := by
    by_cases hn : n = 0 <;> simp [step, look, inside, Body.step, Body.goOn, ht, hn]
  passes n t ho hc := by
    obtain ⟨token, position⟩ := t
    cases token <;> first | rfl | contradiction
  ends _ := rfl

end Reader

namespace Descent

variable {settings : Settings} {finish : Position} {total : Nat}

variable {t : Placed} {rest : List Lexed} {es : List Diagnostic}

theorem descends_skipWhitespace (results : List Lexed) : ∃ faults back,
    Descends settings finish total (skipWhitespace settings) results 2 () faults back ∧
      back.length ≤ results.length ∧
      (back = [] ∨ ∃ t rest, back = .ok t :: rest ∧ t.token ≠ .whitespace) ∧
      ∀ r : Reader, r.Rests → r.Leads finish results faults r back := by
  induction results using tokens_induction
  case h₁ es =>
    refine ⟨es ++ [], [], ?_, by simp, .inl rfl, fun r hr => ?_⟩
    · exact .weaken (.ahead_nil (fun _ => rfl) es fun _ => .pure) (by simp) rfl
    · simpa using @Reader.Leads.of_errors _ _ [] hr.damage es
  case h₂ es t rest ih =>
    obtain ⟨token, position⟩ := t
    cases token
    case whitespace =>
      obtain ⟨faults, back, hd, hl, hb, hr⟩ := ih rest (Nat.le_refl _)
      refine ⟨es ++ ([] ++ faults), back, ?_, hl.trans (Nat.le_of_lt length_lt_errors), hb, fun r h => ?_⟩
      · exact .weaken (.ahead_cons (fun _ => rfl) rfl fun hle =>
          .bind descends_next (.again length_lt_errors hle hd)) (by simp) rfl
      · exact (Reader.Leads.of_errors h.damage es).trans
          ((Reader.Leads.of_step (h.blank _ rfl)).trans (hr r h))
    all_goals
      refine ⟨es ++ [], .ok ⟨_, position⟩ :: rest, ?_, length_le_errors, .inr ⟨_, rest, rfl, ?_⟩,
        fun r h => ?_⟩
      · exact .weaken (.ahead_cons (fun _ => rfl) rfl fun _ => .pure) (by simp) rfl
      · simp
      · simpa using Reader.Leads.of_errors h.damage es

theorem descends_skipBlock (depth : Nat) (results : List Lexed) : ∃ faults back,
    Descends settings finish total (skipBlock settings depth) results 2 () faults back ∧
      back.length ≤ results.length ∧
      ∀ skipping r, Reader.Skips finish skipping r →
        (skipping depth).Leads finish results faults r back := by
  induction results using tokens_induction generalizing depth
  case h₁ es =>
    refine ⟨es ++ [], [], ?_, by simp, fun skipping r h => ?_⟩
    · exact .weaken (.loop (fun _ => rfl) fun _ => .bind (descends_next_nil es) .pure) (by simp) rfl
    · have := (@Reader.Leads.of_errors _ _ [] (h.damage depth) es).trans
        (@Reader.Leads.of_endOfText _ _ _ [] (h.ends depth))
      simpa using this
  case h₂ es t rest ih =>
    have hlt := Nat.le_of_lt (@length_lt_errors t rest es)
    obtain ⟨token, position⟩ := t
    cases token
    case openBrace =>
      obtain ⟨faults, back, hd, hl, hr⟩ := ih rest (Nat.le_refl _) (depth + 1)
      refine ⟨es ++ faults, back, ?_, hl.trans hlt, fun skipping r h => ?_⟩
      · exact .weaken (.loop (fun _ => rfl) fun hle => .bind (descends_next_cons es)
          (.again length_lt_errors hle hd)) (by simp) rfl
      · exact (Reader.Leads.of_errors (h.damage depth) es).trans
          ((Reader.Leads.of_step (h.opens depth _ rfl)).trans (hr skipping r h))
    case closeBrace =>
      cases depth
      case zero =>
        refine ⟨es ++ [], rest, ?_, hlt, fun skipping r h => ?_⟩
        · exact .weaken (.loop (fun _ => rfl) fun hle => .bind (descends_next_cons es) .pure) (by simp) rfl
        · exact (Reader.Leads.of_errors (h.damage 0) es).trans (.of_step (h.closes 0 _ rfl))
      case succ depth =>
        obtain ⟨faults, back, hd, hl, hr⟩ := ih rest (Nat.le_refl _) depth
        refine ⟨es ++ faults, back, ?_, hl.trans hlt, fun skipping r h => ?_⟩
        · exact .weaken (.loop (fun _ => rfl) fun hle => .bind (descends_next_cons es)
            (.again length_lt_errors hle hd)) (by simp) rfl
        · exact (Reader.Leads.of_errors (h.damage _) es).trans
            ((Reader.Leads.of_step (h.closes _ _ rfl)).trans (hr skipping r h))
    all_goals
      obtain ⟨faults, back, hd, hl, hr⟩ := ih rest (Nat.le_refl _) depth
      refine ⟨es ++ faults, back, ?_, hl.trans hlt, fun skipping r h => ?_⟩
      · exact .weaken (.loop (fun _ => rfl) fun hle => .bind (descends_next_cons es)
          (.again length_lt_errors hle hd)) (by simp) rfl
      · exact (Reader.Leads.of_errors (h.damage depth) es).trans
          ((Reader.Leads.of_step (h.passes depth _ (by simp) (by simp))).trans (hr skipping r h))

/-! ### Declarations -/

variable {owner : Owner} {done : List Declaration}

theorem rests_between (r : Reader) : (r.inside owner ⟨done, .between⟩).Rests where
  damage := rfl
  blank t ht := by simp [Reader.inside, Reader.look, Reader.step, Body.step, Body.goOn, ht]

theorem rests_afterName (r : Reader) {name : String} {position : Position} :
    (r.inside owner ⟨done, .afterName name position⟩).Rests where
  damage := rfl
  blank t ht := by simp [Reader.inside, Reader.look, Reader.step, Body.step, Body.goOn, ht]

-- What skipping the rest of a declaration comes to, which leaves no more than so much.
def SkipsRest (settings : Settings) (finish : Position) (total : Nat) (results : List Lexed)
    (cost : Int) (most : Nat) : Prop :=
  ∃ faults back, Descends settings finish total (skipDeclaration settings) results cost () faults
    back ∧ back.length ≤ most ∧ ∀ (r : Reader) owner done,
      (r.inside owner ⟨done, .skipping⟩).Leads finish results faults
        (r.inside owner ⟨done, .between⟩) back

-- A token that closes nothing is taken.
theorem skipsRest_cons (ht : t.token ≠ .closeBrace)
    (h : SkipsRest settings finish total rest 2 rest.length) :
    SkipsRest settings finish total (es.map .error ++ .ok t :: rest) (-11) rest.length := by
  obtain ⟨token, position⟩ := t
  have herrors (r : Reader) (owner : Owner) (done : List Declaration) (back : List Lexed) :
      (r.inside owner ⟨done, .skipping⟩).Leads finish (es.map .error ++ back) es
        (r.inside owner ⟨done, .skipping⟩) back :=
    .of_errors rfl es
  cases token
  case closeBrace => contradiction
  case semicolon =>
    refine ⟨es ++ [], rest, ?_, Nat.le_refl _, fun r owner done => ?_⟩
    · exact .weaken (.ahead_cons (fun _ => rfl) rfl fun _ => .returns descends_next _) (by simp) rfl
    · exact (herrors r owner done _).trans (.of_step rfl)
  case openBrace =>
    obtain ⟨faults, back, hd, hl, hr⟩ := @descends_skipBlock settings finish total 0 rest
    refine ⟨es ++ ([] ++ faults), back, ?_, hl, fun r owner done => ?_⟩
    · exact .weaken (.ahead_cons (fun _ => rfl) rfl fun _ => .bind descends_next hd) (by simp) rfl
    · exact (herrors r owner done _).trans ((Reader.Leads.of_step rfl).trans
        (hr _ _ (Reader.skips_body finish r owner done)))
  all_goals
    obtain ⟨faults, back, hd, hl, hr⟩ := h
    refine ⟨es ++ ([] ++ faults), back, ?_, hl, fun r owner done => ?_⟩
    · exact .weaken (.ahead_cons (fun _ => rfl) rfl fun hle =>
        .bind descends_next (.again length_lt_errors hle hd)) (by simp) rfl
    · exact (herrors r owner done _).trans ((Reader.Leads.of_step rfl).trans (hr r owner done))

theorem skipsRest (results : List Lexed) :
    SkipsRest settings finish total results 2 results.length := by
  induction results using tokens_induction
  case h₁ es =>
    refine ⟨es ++ [], [], ?_, by simp, fun r owner done => ?_⟩
    · exact .weaken (.ahead_nil (fun _ => rfl) es fun _ => .pure) (by simp) rfl
    · have : (r.inside owner ⟨done, .skipping⟩).Leads finish (es.map .error ++ []) es _ _ :=
        .of_errors rfl es
      rw [List.append_nil] at this
      exact this.trans (@Reader.Leads.of_endOfText _ _ _ [] rfl)
  case h₂ es t rest ih =>
    by_cases ht : t.token = .closeBrace
    case pos =>
      obtain ⟨token, position⟩ := t
      subst ht
      refine ⟨es ++ [], .ok ⟨.closeBrace, position⟩ :: rest, ?_, length_le_errors,
        fun r owner done => ?_⟩
      · exact .weaken (.ahead_cons (fun _ => rfl) rfl fun _ => .pure) (by simp) rfl
      · exact (Reader.Leads.of_errors rfl es).trans (.of_step_eq rfl)
    case neg =>
      obtain ⟨faults, back, hd, hl, hr⟩ := skipsRest_cons ht (ih rest (Nat.le_refl _))
      exact ⟨faults, back, hd.weaken (by simp) rfl, hl.trans (Nat.le_of_lt length_lt_errors), hr⟩

-- A reader in a value, in the braces of an owner.
def within (r : Reader) (owner : Owner) (done : List Declaration) (name : String)
    (position : Position) (tokens : List Placed) (damaged : Bool) : Reader :=
  r.inside owner ⟨done, .value name position tokens damaged⟩

-- What it comes to where the value ends, and the fault in that.
def ended (r : Reader) (owner : Owner) (done : List Declaration) (name : String)
    (position : Position) (tokens : List Placed) (damaged : Bool) (stop : Position) :
    Reader × List Diagnostic :=
  let b := Body.endValue ⟨done, .between⟩ name position tokens damaged stop
  (r.inside owner b.1, b.2)

variable {name : String} {position stop : Position} {tokens : List Placed} {damaged : Bool}
  {r : Reader}

theorem leads_value_errors (es : List Diagnostic) :
    (within r owner done name position tokens damaged).Leads finish (es.map .error ++ rest) es
      (within r owner done name position tokens (damaged || !es.isEmpty)) rest :=
  .of_damaging (within r owner done name position tokens) (fun _ => rfl) es

-- A reader behind a value.
theorem exists_ended (r : Reader) (owner : Owner) (done : List Declaration) (name : String)
    (position : Position) (tokens : List Placed) (damaged : Bool) (stop : Position) :
    ∃ done' faults, Body.endValue ⟨done, .between⟩ name position tokens damaged stop =
      (⟨done', .between⟩, faults) ∧ ended r owner done name position tokens damaged stop =
        (r.inside owner ⟨done', .between⟩, faults) := by
  unfold ended Body.endValue
  split
  case isTrue => exact ⟨_, _, rfl, rfl⟩
  case isFalse => split <;> exact ⟨_, _, rfl, rfl⟩

-- Where the text or the body ends, a value ends in front of that.
theorem leads_ended_nil :
    (within r owner done name position tokens damaged).Leads finish []
      (ended r owner done name position tokens damaged finish).2
      (ended r owner done name position tokens damaged finish).1 [] := by
  obtain ⟨done', faults, hb, he⟩ := exists_ended r owner done name position tokens damaged finish
  rw [he]
  refine .of_endOfText ?_
  have hb' : Body.endValue ⟨done, .value name position tokens damaged⟩ name position tokens damaged
      finish = (⟨done', .between⟩, faults) := hb
  simp [within, Reader.inside, Reader.endOfText, Reader.look, Reader.append, Body.endOfText, hb']

theorem leads_ended_closeBrace {t : Placed} (ht : t.token = .closeBrace) :
    (within r owner done name position tokens damaged).Leads finish (.ok t :: rest)
      (ended r owner done name position tokens damaged t.position).2
      (ended r owner done name position tokens damaged t.position).1 (.ok t :: rest) := by
  obtain ⟨done', faults, hb, he⟩ := exists_ended r owner done name position tokens damaged t.position
  rw [he]
  refine .of_step_eq ?_
  have hb' : Body.endValue ⟨done, .value name position tokens damaged⟩ name position tokens damaged
      t.position = (⟨done', .between⟩, faults) := hb
  simp [within, Reader.inside, Reader.step, Reader.look, Reader.append, Body.step, ht, hb']

theorem leads_ended_semicolon {t : Placed} (ht : t.token = .semicolon) :
    (within r owner done name position tokens damaged).Leads finish (.ok t :: rest)
      (ended r owner done name position tokens damaged t.position).2
      (ended r owner done name position tokens damaged t.position).1 rest := by
  obtain ⟨done', faults, hb, he⟩ := exists_ended r owner done name position tokens damaged t.position
  rw [he]
  refine .of_step ?_
  have hb' : Body.endValue ⟨done, .value name position tokens damaged⟩ name position tokens damaged
      t.position = (⟨done', .between⟩, faults) := hb
  simp [within, Reader.inside, Reader.step, Reader.look, Body.step, ht, hb']

-- What the tokens of a value come to.
def TakesValue (finish : Position) (results : List Lexed) (faults : List Diagnostic)
    (back : List Lexed) (name : String) (tokens : List Placed) :
    Option (List Placed × Position) → Prop
  | none => ∀ r owner done position damaged,
    (within r owner done name position tokens damaged).Leads finish results faults
      (r.inside owner ⟨done, .between⟩) back
  | some (all, stop) => ∀ r owner done position damaged,
    (within r owner done name position tokens damaged).Leads finish results
      (faults ++ (ended r owner done name position all (damaged || !faults.isEmpty) stop).2)
      (ended r owner done name position all (damaged || !faults.isEmpty) stop).1 back

theorem isEmpty_append {es faults : List Diagnostic} :
    (damaged || !(es ++ faults).isEmpty) = (damaged || !es.isEmpty || !faults.isEmpty) := by
  cases es <;> simp

-- A token of the value in front of the rest of it.
theorem TakesValue.cons {faults : List Diagnostic} {back : List Lexed} {a} {t : Placed}
    (hs : t.token.staysIn) (h : TakesValue finish rest faults back name (tokens ++ [t]) a)
    (es : List Diagnostic) :
    TakesValue finish (es.map .error ++ .ok t :: rest) (es ++ faults) back name tokens a := by
  have hstep (r : Reader) (owner : Owner) (done : List Declaration) (position : Position)
      (damaged : Bool) : (within r owner done name position tokens damaged).Leads finish
        (es.map .error ++ .ok t :: rest) es
        (within r owner done name position (tokens ++ [t]) (damaged || !es.isEmpty)) rest := by
    have hone : (within r owner done name position tokens (damaged || !es.isEmpty)).Leads finish
        (.ok t :: rest) [] (within r owner done name position (tokens ++ [t])
          (damaged || !es.isEmpty)) rest := by
      refine .of_step ?_
      obtain ⟨token, place⟩ := t
      cases token
      case semicolon | openBrace | closeBrace => cases hs
      all_goals rfl
    simpa using (leads_value_errors es).trans hone
  cases a
  case none => exact fun r owner done position damaged => (hstep ..).trans (h r owner done position _)
  case some =>
    intro r owner done position damaged
    rw [isEmpty_append, List.append_assoc]
    exact (hstep ..).trans (h r owner done position _)

theorem descends_valueTokens (results : List Lexed) (tokens : List Placed) : ∃ a faults back,
    Descends settings finish total (valueTokens settings name tokens) results 4 a faults back ∧
      back.length ≤ results.length ∧ TakesValue finish results faults back name tokens a := by
  induction results using tokens_induction generalizing tokens
  case h₁ es =>
    refine ⟨some (tokens, finish), es ++ [], [], ?_, by simp, fun r owner done position damaged => ?_⟩
    · exact .weaken (.ahead_nil (fun _ => rfl) es fun _ => .pure) (by simp) rfl
    · have := (@leads_value_errors finish [] owner done name position tokens damaged r es).trans
        leads_ended_nil
      simpa using this
  case h₂ es t rest ih =>
    have hlt := Nat.le_of_lt (@length_lt_errors t rest es)
    obtain ⟨token, position⟩ := t
    cases token
    case closeBrace =>
      refine ⟨some (tokens, position), es ++ [], .ok ⟨.closeBrace, position⟩ :: rest, ?_,
        length_le_errors, fun r owner done start damaged => ?_⟩
      · exact .weaken (.ahead_cons (fun _ => rfl) rfl fun _ => .pure) (by simp) rfl
      · rw [List.append_nil]
        exact (leads_value_errors es).trans (leads_ended_closeBrace rfl)
    case semicolon =>
      refine ⟨some (tokens, position), es ++ [], rest, ?_, hlt,
        fun r owner done start damaged => ?_⟩
      · exact .weaken (.ahead_cons (fun _ => rfl) rfl fun _ => .returns descends_next _) (by simp) rfl
      · rw [List.append_nil]
        exact (leads_value_errors es).trans (leads_ended_semicolon rfl)
    case openBrace =>
      obtain ⟨faults, back, hd, hl, hr⟩ := @skipsRest_cons settings finish total
        ⟨.openBrace, position⟩ rest [] (by simp) (skipsRest rest)
      refine ⟨none, es ++ ([.atToken (.braceInValue name) position] ++ faults), back, ?_,
        hl.trans hlt, fun r owner done start damaged => ?_⟩
      · exact .weaken (.ahead_cons (fun _ => rfl) rfl fun _ => .bind (descends_recover _) (.returns hd _)) (by simp)
          rfl
      · exact (leads_value_errors es).trans ((Reader.Leads.of_step_eq rfl).trans (hr r owner done))
    all_goals
      obtain ⟨a, faults, back, hd, hl, hr⟩ := ih rest (Nat.le_refl _) (tokens ++ [⟨_, position⟩])
      refine ⟨a, es ++ ([] ++ faults), back, ?_, hl.trans hlt, hr.cons rfl es⟩
      exact .weaken (.ahead_cons (fun _ => rfl) rfl fun hle =>
        .bind descends_next (.again length_lt_errors hle hd)) (by simp) rfl

theorem descends_value (results : List Lexed) (name : String) (position : Position) :
    ∃ d faults back, Descends settings finish total (value settings name position) results 4 d faults
      back ∧ back.length ≤ results.length ∧ ∀ (r : Reader) owner done,
        (within r owner done name position [] false).Leads finish results faults
          (r.inside owner ⟨done ++ d.toList, .between⟩) back := by
  obtain ⟨a, faults, back, hd, hl, hr⟩ := @descends_valueTokens settings finish total name results []
  cases a
  case none =>
    refine ⟨none, faults ++ [], back, .weaken (.bind hd.watch .pure) (by simp) rfl, hl,
      fun r owner done => ?_⟩
    simpa using hr r owner done position false
  case some taken =>
    obtain ⟨tokens, stop⟩ := taken
    cases faults
    case cons fault faults =>
      refine ⟨none, fault :: faults ++ [], back, .weaken (.bind hd.watch .pure) (by simp) rfl, hl,
        fun r owner done => ?_⟩
      simpa [ended, Body.endValue] using hr r owner done position false
    case nil =>
      cases hv : Declaration.ofTokens name position tokens stop
      case error e =>
        have hx : Descends settings finish total (value settings name position) results (4 + 0) none
            ([] ++ [e]) back := by
          refine .bind hd.watch ?_
          simp only [List.isEmpty_nil, Bool.not_true, hv]
          exact .weaken (.bind (descends_recover e) .pure) (by simp) rfl
        refine ⟨none, _, back, hx, hl, fun r owner done => ?_⟩
        simpa [ended, Body.endValue, hv] using hr r owner done position false
      case ok d =>
        have hx : Descends settings finish total (value settings name position) results (4 + 0)
            (some d) [] back := by
          refine .bind hd.watch ?_
          simp only [List.isEmpty_nil, Bool.not_true, hv]
          exact .pure
        refine ⟨some d, _, back, hx, hl, fun r owner done => ?_⟩
        simpa [ended, Body.endValue, hv] using hr r owner done position false

-- A token with which a declaration is given up is the first that is skipped.
theorem leads_skipping (r : Reader) (owner : Owner) (done : List Declaration) (clause : Clause)
    {t : Placed} {faults : List Diagnostic}
    (h : Body.step ⟨done, clause⟩ t = Body.skip ⟨done, clause⟩ t.token faults) :
    (r.inside owner ⟨done, clause⟩).Leads finish (.ok t :: rest) faults
      (r.inside owner ⟨done, .skipping⟩) (.ok t :: rest) := by
  refine .of_step_eq ?_
  simp only [Reader.inside, Reader.step, Reader.look, h]
  obtain ⟨token, position⟩ := t
  cases token <;> simp [Body.step, Body.skip, Body.goOn, Reader.append]

theorem descends_declaration (hb : t.token ≠ .whitespace) (hs : t.token ≠ .semicolon)
    (hc : t.token ≠ .closeBrace) : ∃ d faults back, Descends settings finish total (declaration settings t.token t.position)
      (.ok t :: rest) (-10) d faults back ∧ back.length ≤ rest.length ∧ ∀ (r : Reader) owner done,
        (r.inside owner ⟨done, .between⟩).Leads finish (.ok t :: rest) faults
          (r.inside owner ⟨done ++ d.toList, .between⟩) back := by
  obtain ⟨token, position⟩ := t
  cases token
  case whitespace | semicolon | closeBrace => contradiction
  case identifier word =>
    obtain ⟨found, middle, hws, hl, hm, hr⟩ :=
      @descends_skipWhitespace settings finish total rest
    have hstart (r : Reader) (owner : Owner) (done : List Declaration) :
        (r.inside owner ⟨done, .between⟩).Leads finish (.ok ⟨.identifier word, position⟩ :: rest)
          found (r.inside owner ⟨done, .afterName (propertyName word) position⟩) middle :=
      (Reader.Leads.of_step rfl).trans (hr _ (rests_afterName r))
    rcases hm with rfl | ⟨⟨token, place⟩, behind, rfl, hu⟩
    · obtain ⟨faults, back, hd, hback, hr⟩ := @skipsRest settings finish total []
      refine ⟨none, _, back, .weaken (.bind descends_next (.bind hws (.bind descends_peek_nil
        (.bind (descends_recover _) (.returns hd _))))) (by simp) rfl, hback.trans hl,
        fun r owner done => ?_⟩
      have hend : (r.inside owner ⟨done, .afterName (propertyName word) position⟩).Leads finish []
          [.atToken (.expectedColon (propertyName word)) finish] (r.inside owner ⟨done, .skipping⟩)
          [] := .of_endOfText rfl
      simpa using (hstart r owner done).trans (hend.trans (hr r owner done))
    · cases token
      case colon =>
        obtain ⟨d, faults, back, hd, hback, hr⟩ :=
          @descends_value settings finish total behind (propertyName word) position
        refine ⟨d, _, back, .weaken (.bind descends_next (.bind hws (.bind descends_peek_cons
          (.bind descends_next hd)))) (by simp) rfl,
          hback.trans ((Nat.le_succ _).trans hl), fun r owner done => ?_⟩
        have hcolon : (r.inside owner ⟨done, .afterName (propertyName word) position⟩).Leads finish
            (.ok ⟨.colon, place⟩ :: behind) []
            (within r owner done (propertyName word) position [] false) behind := .of_step rfl
        simpa using (hstart r owner done).trans (hcolon.trans (hr r owner done))
      case whitespace => simp at hu
      all_goals
        obtain ⟨faults, back, hd, hback, hr⟩ :=
          @skipsRest settings finish total (.ok ⟨_, place⟩ :: behind)
        refine ⟨none, _, back, .weaken (.bind descends_next (.bind hws (.bind descends_peek_cons
          (.bind (descends_recover _) (.returns hd _))))) (by simp) rfl, hback.trans hl,
          fun r owner done => ?_⟩
        simpa using (hstart r owner done).trans
          ((leads_skipping r owner done (.afterName _ _) rfl).trans (hr r owner done))
  all_goals
    obtain ⟨faults, back, hd, hback, hr⟩ := @skipsRest_cons settings finish total
      ⟨_, position⟩ rest [] hc (skipsRest rest)
    refine ⟨none, _, back, .weaken (.bind (descends_recover _) (.returns hd _)) (by simp) rfl, hback,
      fun r owner done => ?_⟩
    simpa using (leads_skipping r owner done .between rfl).trans (hr r owner done)

theorem descends_declarations (results : List Lexed) (rules : List Declaration) :
    ∃ all faults back, Descends settings finish total (declarations settings rules) results 4 all
      faults back ∧ back.length ≤ results.length ∧ ∀ (r : Reader) owner,
        (r.inside owner ⟨rules, .between⟩).Leads finish results faults (r.append (owner.node all))
          back := by
  induction hn : results.length using Nat.strongRecOn generalizing results rules
  case ind n ih =>
    subst hn
    obtain ⟨found, middle, hws, hl, hm, hr⟩ := @descends_skipWhitespace settings finish total results
    have hstart (r : Reader) (owner : Owner) := hr _ (@rests_between owner rules r)
    rcases hm with rfl | ⟨⟨token, position⟩, rest, rfl, hb⟩
    · refine ⟨rules, found ++ [.atToken .unterminatedBlock finish], [], ?_, hl, fun r owner => ?_⟩
      · exact .weaken (.loop (fun _ => rfl) fun _ => .bind hws (.bind descends_peek_nil
          (.returns (descends_recover _) _))) (by simp) (by simp)
      · refine (hstart r owner).trans (.of_endOfText ?_)
        simp [Reader.inside, Reader.look, Reader.endOfText, Body.endOfText, Reader.append]
    · have hlt : rest.length < results.length := hl
      -- What is done behind one more declaration, or none.
      have hgo (d : Option Declaration) (middle : List Lexed) (hmiddle : middle.length ≤ rest.length) :=
        ih middle.length (Nat.lt_of_le_of_lt hmiddle hlt) middle (rules ++ d.toList) rfl
      cases token
      case whitespace => simp at hb
      case closeBrace =>
        refine ⟨rules, found, rest, ?_, Nat.le_of_lt hlt, fun r owner => ?_⟩
        · exact .weaken (.loop (fun _ => rfl) fun _ => .bind hws (.bind descends_peek_cons
            (.returns descends_next _))) (by simp) (by simp)
        · have hclose : (r.inside owner ⟨rules, .between⟩).step ⟨.closeBrace, position⟩ =
              (r.append (owner.node rules), []) := rfl
          simpa using (hstart r owner).trans (.of_step hclose)
      case semicolon =>
        obtain ⟨all, faults, back, hd, hback, hr⟩ := hgo none rest (Nat.le_refl _)
        rw [Option.toList_none, List.append_nil] at hd hr
        refine ⟨all, found ++ faults, back, ?_, hback.trans (Nat.le_of_lt hlt), fun r owner => ?_⟩
        · exact .weaken (.loop (fun _ => rfl) fun hle => .bind hws (.bind descends_peek_cons
            (.bind descends_next (.again hlt hle hd)))) (by simp) (by simp)
        · exact (hstart r owner).trans ((@Reader.Leads.of_step _ _ _ _ [] _ rfl).trans (hr r owner))
      all_goals
        obtain ⟨d, missed, middle, hone, hmiddle, hleads⟩ :=
          @descends_declaration settings finish total ⟨_, position⟩ rest hb (by simp) (by simp)
        obtain ⟨all, faults, back, hd, hback, hr⟩ := hgo d middle hmiddle
        refine ⟨all, found ++ (missed ++ faults), back, ?_,
          hback.trans (hmiddle.trans (Nat.le_of_lt hlt)), fun r owner => ?_⟩
        · exact .weaken (.loop (fun _ => rfl) fun hle => .bind hws (.bind descends_peek_cons
            (.bind hone (.again (Nat.lt_of_le_of_lt hmiddle hlt) hle hd)))) (by simp) (by simp)
        · exact (hstart r owner).trans ((hleads r owner rules).trans (hr r owner))

end Descent
end Stylesheet
