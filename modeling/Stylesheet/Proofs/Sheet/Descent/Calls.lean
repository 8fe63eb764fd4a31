import Stylesheet.Proofs.Sheet.Descent.Tokens
import Stylesheet.Proofs.Sheet.Strictness
import Stylesheet.Proofs.Token.Progress
/-!
How a descent gets its tokens. Whatever calls it makes, it takes the tokens of the lexer one after
the other and none of them twice, and a fault is recorded once, when a token behind it is looked at.
Main statement: `Descent.delivers_calls`.
-/

namespace Stylesheet

namespace Lexer

variable {l : Lexer} {results : List Lexed} {finish : Position}

theorem Yields.calls (h : l.Yields results finish) (n : Nat) :
    (l.calls n).Yields (results.drop n) finish := by
  induction n
  case zero => exact h
  case succ n ih =>
    have hnext := ih.next.2
    rwa [List.tail_drop] at hnext

-- Calls one after the other give one result each.
theorem next_calls (multibyte : Bool) (text : String) (n : Nat) :
    ((ofText multibyte text).calls n).next.1 = ((Cursor.ofText text).lex multibyte).1[n]? := by
  have h : (ofText multibyte text).Yields ((Cursor.ofText text).lex multibyte).1
    ((Cursor.ofText text).lex multibyte).2 := .fresh rfl
  rw [(h.calls n).next.1, List.head?_drop]

end Lexer

-- The first of some tokens, or the end of the text.
def Ahead.first (finish : Position) : List Placed → Ahead
  | [] => ⟨none, finish⟩
  | t :: _ => ⟨some t.token, t.position⟩

namespace Descent

/-! ### Tokens that were looked at before -/

section

variable {settings : Settings} {α β : Type}

-- What holds of each result of a descent, and of how far it has come then.
def Ensures (x : Descend α) (post : α → Descent → Prop) : Prop :=
  ∀ d a d', (x.run d).run = some (.ok (a, d')) → post a d'

theorem exists_of_run_bind {x : Descend α} {f : α → Descend β} {d d'' : Descent} {b : β}
    (h : ((x >>= f).run d).run = some (.ok (b, d''))) :
    ∃ a d', (x.run d).run = some (.ok (a, d')) ∧ ((f a).run d').run = some (.ok (b, d'')) := by
  rw [StateT.run_bind, ExceptT.run_bind] at h
  have ⟨result, hx, hf⟩ := Option.bind_eq_some_iff.mp h
  cases result
  case error => cases hf
  case ok result => exact ⟨result.1, result.2, hx, hf⟩

theorem bind_congr_of_ensures {x : Descend α} {f g : α → Descend β} {mid : α → Descent → Prop}
    (hx : Ensures x mid) (h : ∀ a d, mid a d → (f a).run d = (g a).run d) : x >>= f = x >>= g := by
  apply StateT.ext
  intro d
  apply ExceptT.ext
  rw [StateT.run_bind, StateT.run_bind, ExceptT.run_bind, ExceptT.run_bind]
  cases hr : (x.run d).run
  case none => rfl
  case some result =>
    cases result
    case error => rfl
    case ok result =>
      change ((f result.1).run result.2).run = ((g result.1).run result.2).run
      rw [h _ _ (hx _ _ _ hr)]

-- The lexer holds back what was looked at.
theorem ensures_look : Ensures look fun found d =>
    (∃ result, d.lexer.ahead = some (some result) ∧ found = .inr result) ∨
      d.lexer.ahead = some none ∧ found = .inl d.lexer.cursor.position := by
  intro d found d' h
  have hahead : d.lexer.peek.2.ahead = some d.lexer.peek.1 := by
    unfold Lexer.peek
    split
    · assumption
    · rfl
  cases hp : d.lexer.peek
  case mk result lexer =>
    rw [hp] at hahead
    simp only [look, modifyGet, MonadStateOf.modifyGet, StateT.modifyGet, StateT.run, hp] at h
    cases result
    case none =>
      cases h
      exact .inr ⟨hahead, rfl⟩
    case some result =>
      cases h
      exact .inl ⟨result, hahead, rfl⟩

theorem ensures_peek (limit : Nat) : Ensures (peek settings limit) fun ahead d =>
    (∃ t, d.lexer.ahead = some (some (.ok t)) ∧ ahead = ⟨some t.token, t.position⟩) ∨
      d.lexer.ahead = some none ∧ ahead = ⟨none, d.lexer.cursor.position⟩ := by
  induction limit
  case zero =>
    intro d a d' h
    cases h
  case succ limit ih =>
    intro d ahead d' h
    have ⟨before, d₁, _, h⟩ := exists_of_run_bind h
    have ⟨found, d₂, hlook, h⟩ := exists_of_run_bind h
    obtain ⟨result, hahead, rfl⟩ | ⟨hahead, rfl⟩ := ensures_look d₁ found d₂ hlook
    case inl =>
      cases result
      case ok t =>
        cases h
        exact .inl ⟨t, hahead, rfl⟩
      case error fault =>
        have ⟨_, d₃, _, h⟩ := exists_of_run_bind h
        have ⟨_, d₄, _, h⟩ := exists_of_run_bind h
        have ⟨_, d₅, _, h⟩ := exists_of_run_bind h
        exact ih d₅ ahead d' h
    case inr =>
      cases h
      exact .inr ⟨hahead, rfl⟩

-- The next token as the lexer gives it out.
def takeNext (settings : Settings) (limit : Nat) : Descend Ahead := do
  let _ ← peek settings limit
  match ← take with
  | some (.ok t) => return ⟨some t.token, t.position⟩
  | some (.error fault) => throw fault
  | none => return ⟨none, (← get).lexer.cursor.position⟩

theorem takeNext_eq (limit : Nat) : takeNext settings limit = next settings limit := by
  refine bind_congr_of_ensures (ensures_peek limit) fun ahead d h => ?_
  have htake {result : Option Lexed} (h : d.lexer.ahead = some result) :
      take.run d = Pure.pure (result, { d with
        lexer := { d.lexer with ahead := none }
        taken := d.taken + result.toList.length }) := by
    simp [take, modifyGet, MonadStateOf.modifyGet, StateT.modifyGet, StateT.run, Lexer.next, h]
  obtain ⟨t, hahead, rfl⟩ | ⟨hahead, rfl⟩ := h
  all_goals
    rw [StateT.run_bind, StateT.run_bind, htake hahead]
    rfl

end

/-! ### Calls -/

-- The ways to get at tokens. Whether a look hands out the token or a copy makes no difference.
inductive Call where
  | peek
  | next
  | skipWhitespace

-- A look at a token, or the taking of one, or the same where the text has ended.
inductive Event where
  | seen (ahead : Ahead)
  | taken (ahead : Ahead)

-- What is skipped, and what is looked at behind it.
def skipped (settings : Settings) : (limit : Nat) → Descend (List Event)
  | 0 => exhausted
  | limit + 1 => do
    let before ← round
    let ahead ← peek settings limit
    match ahead.token with
    | some .whitespace =>
      let white ← takeNext settings limit
      again before
      let events ← skipped settings limit
      return .taken white :: events
    | _ => return [.seen ahead]

theorem skipped_eq (settings : Settings) (limit : Nat) :
    (fun _ => ()) <$> skipped settings limit = skipWhitespace settings limit := by
  induction limit
  case zero => rfl
  case succ limit ih =>
    rw [skipped, skipWhitespace]
    simp only [map_bind, takeNext_eq, ← ih]
    refine bind_congr fun before => bind_congr fun ahead => ?_
    split <;> simp_all

def Call.events (settings : Settings) (limit : Nat) : Call → Descend (List Event)
  | peek => return [.seen (← Descent.peek settings limit)]
  | next => return [.taken (← takeNext settings limit)]
  | skipWhitespace => skipped settings limit

-- Calls one after the other, each of them up to the limit.
def events (settings : Settings) (limit : Nat) : List Call → Descend (List Event)
  | [] => return []
  | c :: calls => return (← c.events settings limit) ++ (← events settings limit calls)

/-! ### What calls deliver -/

def tokensOf (results : List Lexed) : List Placed :=
  results.filterMap Except.toOption

def fault? : Lexed → Option Diagnostic
  | .ok _ => none
  | .error fault => some fault

def faultsOf (results : List Lexed) : List Diagnostic :=
  results.filterMap fault?

def Event.ahead : Event → Ahead
  | seen ahead => ahead
  | taken ahead => ahead

def Event.token? : Event → Option Placed
  | seen _ => none
  | taken ahead => ahead.token.map (⟨·, ahead.position⟩)

def takenOf (events : List Event) : List Placed :=
  events.filterMap Event.token?

-- A look shows the first of the tokens and leaves it there; it is there until it is taken.
inductive Answers (finish : Position) : List Placed → List Event → List Placed → Prop
  | done {tokens : List Placed} : Answers finish tokens [] tokens
  | seen {tokens back : List Placed} {events : List Event} (h : Answers finish tokens events back) :
    Answers finish tokens (.seen (.first finish tokens) :: events) back
  | taken {tokens back : List Placed} {events : List Event}
    (h : Answers finish tokens.tail events back) :
    Answers finish tokens (.taken (.first finish tokens) :: events) back

-- The token that was looked at last is the last one that was passed, or the next one.
inductive LooksAt (finish : Position) : List Event → (passed left : List Lexed) → Prop
  | nothing {left : List Lexed} : LooksAt finish [] [] left
  | seen {events : List Event} {passed left : List Lexed} {t : Placed} :
    LooksAt finish (events ++ [.seen (.first finish [t])]) passed (.ok t :: left)
  | taken {events : List Event} {passed left : List Lexed} {t : Placed} :
    LooksAt finish (events ++ [.taken (.first finish [t])]) (passed ++ [.ok t]) left
  | atEnd {events : List Event} {e : Event} {passed : List Lexed} (h : e.ahead = .first finish []) :
    LooksAt finish (events ++ [e]) passed []

-- What events deliver of the results of the lexer. Tokens are passed by being taken, and the faults
-- are those in front of the token that was looked at last.
structure Delivers (finish : Position) (results : List Lexed) (events : List Event)
    (faults : List Diagnostic) (passed left : List Lexed) : Prop where
  results_eq : results = passed ++ left
  answers : Answers finish (tokensOf results) events (tokensOf left)
  taken_eq : takenOf events = tokensOf passed
  faults_eq : faults = faultsOf passed
  looksAt : LooksAt finish events passed left

section

variable {finish : Position} {results middle passed passed' left : List Lexed} {t : Placed}
  {events events' : List Event} {faults faults' : List Diagnostic} {tokens mid back : List Placed}

@[simp] theorem tokensOf_append : tokensOf (passed ++ left) = tokensOf passed ++ tokensOf left :=
  List.filterMap_append

@[simp] theorem tokensOf_errors (es : List Diagnostic) : tokensOf (es.map .error) = [] := by
  simp [tokensOf, List.filterMap_map, Function.comp_def, Except.toOption]

@[simp] theorem faultsOf_append : faultsOf (passed ++ left) = faultsOf passed ++ faultsOf left :=
  List.filterMap_append

@[simp] theorem faultsOf_errors (es : List Diagnostic) : faultsOf (es.map .error) = es := by
  simp [faultsOf, List.filterMap_map, Function.comp_def, fault?]

theorem Answers.append (h : Answers finish tokens events mid)
    (h' : Answers finish mid events' back) : Answers finish tokens (events ++ events') back := by
  induction h
  case done => exact h'
  case seen ih => exact .seen (ih h')
  case taken ih => exact .taken (ih h')

theorem LooksAt.trans (h : LooksAt finish events passed (passed' ++ left))
    (h' : LooksAt finish events' passed' left) :
    LooksAt finish (events ++ events') (passed ++ passed') left := by
  cases h'
  case nothing => simpa using h
  case seen =>
    rw [← List.append_assoc]
    exact .seen
  case taken =>
    rw [← List.append_assoc, ← List.append_assoc]
    exact .taken
  case atEnd hend =>
    rw [← List.append_assoc]
    exact .atEnd hend

namespace Delivers

theorem nothing : Delivers finish results [] [] [] results :=
  ⟨rfl, .done, rfl, rfl, .nothing⟩

theorem trans (h : Delivers finish results events faults passed middle)
    (h' : Delivers finish middle events' faults' passed' left) :
    Delivers finish results (events ++ events') (faults ++ faults') (passed ++ passed') left where
  results_eq := by rw [h.results_eq, h'.results_eq, List.append_assoc]
  answers := h.answers.append h'.answers
  taken_eq := by
    rw [takenOf, List.filterMap_append, tokensOf_append, ← h.taken_eq, ← h'.taken_eq]
    rfl
  faults_eq := by rw [h.faults_eq, h'.faults_eq, faultsOf_append]
  looksAt := .trans (h'.results_eq ▸ h.looksAt) h'.looksAt

-- Faults in front of the token that is looked at.
theorem errors (es : List Diagnostic) (h : Delivers finish results events faults passed left)
    (hne : events ≠ []) : Delivers finish (es.map .error ++ results) events (es ++ faults)
      (es.map .error ++ passed) left where
  results_eq := by rw [h.results_eq, List.append_assoc]
  answers := by simpa using h.answers
  taken_eq := by simpa using h.taken_eq
  faults_eq := by simpa using h.faults_eq
  looksAt := by
    cases h.looksAt
    case nothing => contradiction
    case seen => exact .seen
    case taken =>
      rw [← List.append_assoc]
      exact .taken
    case atEnd hend => exact .atEnd hend

theorem seen : Delivers finish (.ok t :: left) [.seen (.first finish [t])] [] [] (.ok t :: left) :=
  ⟨rfl, .seen .done, rfl, rfl, @LooksAt.seen _ [] _ _ _⟩

theorem taken : Delivers finish (.ok t :: left) [.taken (.first finish [t])] [] [.ok t] left :=
  ⟨rfl, .taken .done, rfl, rfl, @LooksAt.taken _ [] [] _ _⟩

-- The end is taken as often as it is looked at.
theorem atEnd {e : Event} (he : e.ahead = .first finish []) (es : List Diagnostic) :
    Delivers finish (es.map .error) [e] es (es.map .error) [] := by
  have h : Delivers finish [] [e] [] [] [] := by
    have hlooks : LooksAt finish [e] [] [] := @LooksAt.atEnd _ [] _ _ he
    cases e
    all_goals
      obtain rfl : _ = Ahead.first finish [] := he
    case seen => exact ⟨rfl, .seen .done, rfl, rfl, hlooks⟩
    case taken => exact ⟨rfl, .taken .done, rfl, rfl, hlooks⟩
  simpa using h.errors es (by simp)

end Delivers

end

/-! ### Runs of calls -/

section

variable {finish : Position} {total : Nat} {results middle back : List Lexed} {t : Placed}
  {calls calls' : List Call} {events events' : List Event} {faults faults' : List Diagnostic}

theorem descends_takeNext_end (settings : Settings) (es : List Diagnostic) :
    Descends settings finish total (takeNext settings) (es.map .error) 1 (.first finish []) es
      [] := by
  simp only [funext takeNext_eq]
  exact descends_next_nil es

theorem descends_takeNext (settings : Settings) (es : List Diagnostic) :
    Descends settings finish total (takeNext settings) (es.map .error ++ .ok t :: back) (-15)
      (.first finish [t]) es back := by
  simp only [funext takeNext_eq]
  exact descends_next_cons es

theorem descends_skipped (results : List Lexed) : ∃ events faults passed back,
    Delivers finish results events faults passed back ∧ events ≠ [] ∧ ∀ settings,
      Descends settings finish total (skipped settings) results 2 events faults back := by
  induction results using tokens_induction
  case h₁ es =>
    refine ⟨_, _, _, _, @Delivers.atEnd finish (.seen _) rfl es, by simp, fun settings => ?_⟩
    exact .weaken (.ahead_nil (fun _ => rfl) es fun _ => .pure) (by simp) (by simp)
  case h₂ es t rest ih =>
    obtain ⟨token, position⟩ := t
    cases token
    case whitespace =>
      have ⟨events, faults, passed, back, hdelivers, _, hd⟩ := ih rest (Nat.le_refl _)
      have htaken := (@Delivers.taken finish rest ⟨.whitespace, position⟩).trans hdelivers
      have hdelivers := htaken.errors es (by simp)
      refine ⟨_, _, _, _, hdelivers, by simp, fun settings => ?_⟩
      exact .weaken (.ahead_cons (fun _ => rfl) rfl fun hle =>
        .bind (descends_takeNext settings []) (.again length_lt_errors hle
          ((hd settings).returns _))) (by simp) rfl
    all_goals
      refine ⟨_, _, _, _, Delivers.seen.errors es (by simp), by simp, fun settings => ?_⟩
      exact .weaken (.ahead_cons (fun _ => rfl) rfl fun _ => .pure) (by simp) rfl

theorem descends_call (c : Call) (results : List Lexed) : ∃ events faults passed back,
    Delivers finish results events faults passed back ∧ ∀ settings,
      Descends settings finish total (c.events settings) results 2 events faults back := by
  cases c
  case peek =>
    obtain ⟨es, rfl | ⟨t, rest, rfl⟩⟩ := exists_errors results
    · refine ⟨_, _, _, _, @Delivers.atEnd finish (.seen _) rfl es, fun settings => ?_⟩
      exact .weaken ((descends_peek_end es).returns _) (by simp) rfl
    · refine ⟨_, _, _, _, Delivers.seen.errors es (by simp), fun settings => ?_⟩
      exact .weaken ((descends_peek_errors es descends_peek_cons).returns _) (by simp) (by simp)
  case next =>
    obtain ⟨es, rfl | ⟨t, rest, rfl⟩⟩ := exists_errors results
    · refine ⟨_, _, _, _, @Delivers.atEnd finish (.taken _) rfl es, fun settings => ?_⟩
      exact .weaken ((descends_takeNext_end settings es).returns _) (by simp) rfl
    · refine ⟨_, _, _, _, Delivers.taken.errors es (by simp), fun settings => ?_⟩
      exact .weaken ((descends_takeNext settings es).returns _) (by simp) (by simp)
  case skipWhitespace =>
    have ⟨events, faults, passed, back, hdelivers, _, hd⟩ :=
      @descends_skipped finish total results
    exact ⟨events, faults, passed, back, hdelivers, hd⟩

-- What calls come to, each of which stays below the limit by itself.
def Runs (settings : Settings) (finish : Position) (total : Nat) (calls : List Call)
    (results : List Lexed) (events : List Event) (faults : List Diagnostic) (back : List Lexed) :
    Prop :=
  ∀ d, At finish total d results → ∃ d', At finish total d' back ∧
    d'.warnings = d.warnings ++ faults ∧ ∀ limit, 16 * total + 2 < limit →
      ((Descent.events settings limit calls).run d).run =
        some ((settings.report d.warnings faults).map fun _ => (events, d'))

theorem events_append (settings : Settings) (limit : Nat) (calls calls' : List Call) :
    Descent.events settings limit (calls ++ calls') = do
      let found ← Descent.events settings limit calls
      return found ++ (← Descent.events settings limit calls') := by
  induction calls
  case nil => simp [Descent.events]
  case cons c calls ih =>
    simp only [List.cons_append, Descent.events, ih, bind_assoc, pure_bind, List.append_assoc]

namespace Runs

variable {settings : Settings} {c : Call}

theorem nil : Runs settings finish total [] results [] [] results :=
  fun d h => ⟨d, h, by simp, fun _ _ => rfl⟩

-- What is taken off the lexer pays for the rounds of a call.
theorem single {cost : Int} (hc : cost ≤ 2)
    (h : Descends settings finish total (c.events settings) results cost events faults back) :
    Runs settings finish total [c] results events faults back := by
  intro d hd
  have ⟨d', hd', hw, _, _, hr, hrun⟩ := h d hd
  have htaken := hd.taken
  refine ⟨d', hd', hw, fun limit hl => ?_⟩
  have hevents : Descent.events settings limit [c] = c.events settings limit := by
    simp [Descent.events]
  rw [hevents, hrun limit (by omega)]

theorem append (h : Runs settings finish total calls results events faults middle)
    (h' : Runs settings finish total calls' middle events' faults' back) :
    Runs settings finish total (calls ++ calls') results (events ++ events') (faults ++ faults')
      back := by
  intro d hd
  have ⟨d', hd', hw, hrun⟩ := h d hd
  have ⟨d'', hd'', hw', hrun'⟩ := h' d' hd'
  refine ⟨d'', hd'', by rw [hw', hw, List.append_assoc], fun limit hl => ?_⟩
  rw [events_append, StateT.run_bind, ExceptT.run_bind, hrun limit hl, Settings.report_append]
  cases hreport : settings.report d.warnings faults
  case error => rfl
  case ok =>
    rw [Settings.eq_append_of_report hreport, ← hw]
    change ((Descent.events settings limit calls' >>= fun found =>
        Pure.pure (events ++ found)).run d').run =
      some ((settings.report d'.warnings faults').map fun _ => (events ++ events', d''))
    rw [StateT.run_bind, ExceptT.run_bind, hrun' limit hl]
    cases settings.report d'.warnings faults' <;> rfl

end Runs

theorem exists_runs (calls : List Call) (results : List Lexed) : ∃ events faults passed back,
    Delivers finish results events faults passed back ∧ ∀ settings,
      Runs settings finish total calls results events faults back := by
  induction calls generalizing results
  case nil => exact ⟨[], [], [], results, .nothing, fun _ => .nil⟩
  case cons c calls ih =>
    have ⟨_, _, _, middle, hone, hd⟩ := @descends_call finish total c results
    have ⟨_, _, _, back, hrest, hruns⟩ := ih middle
    refine ⟨_, _, _, back, hone.trans hrest, fun settings => ?_⟩
    exact (Runs.single (Int.le_refl _) (hd settings)).append (hruns settings)

-- A look may be repeated, and what it shows may be taken; nothing more is found wrong by that.
theorem exists_looks (settings : Settings) (results : List Lexed) : ∃ ahead es back rest,
    Runs settings finish total [.peek] results [.seen ahead] es back ∧
      Runs settings finish total [.peek] back [.seen ahead] [] back ∧
      Runs settings finish total [.next] back [.taken ahead] [] rest := by
  have ⟨es, h⟩ := exists_errors results
  obtain rfl | ⟨t, rest, rfl⟩ := h
  · refine ⟨.first finish [], es, [], [], ?_, ?_, ?_⟩
    · exact .single (by simp) ((descends_peek_end es).returns _)
    · exact .single (by simp) ((descends_peek_end []).returns _)
    · exact .single (by simp) ((descends_takeNext_end settings []).returns _)
  · refine ⟨.first finish [t], es, .ok t :: rest, rest, ?_, ?_, ?_⟩
    · exact .single (by simp) ((descends_peek_errors es descends_peek_cons).returns _)
    · exact .single (by simp) (descends_peek_cons.returns _)
    · exact .single (by simp) ((descends_takeNext settings []).returns _)

end

-- What calls come to from the beginning of a text, if the limit is above what the text allows for.
def Comes (settings : Settings) (text : String) (calls : List Call)
    (result : Except Diagnostic (List Event × Descent)) : Prop :=
  ∀ limit, 16 * text.length + 2 < limit → ((Descent.events settings limit calls).run
    { lexer := .ofText settings.multibyte text }).run = some result

section

variable {settings : Settings} {text : String} {results back : List Lexed} {finish : Position}
  {calls : List Call} {events : List Event} {faults : List Diagnostic}

theorem Runs.comes
    (h : Runs settings finish results.length calls results events faults back)
    (hlex : (Cursor.ofText text).lex settings.multibyte = (results, finish)) :
    ∃ d : Descent, d.warnings = faults ∧
      Comes settings text calls ((settings.report [] faults).map fun _ => (events, d)) := by
  have hlength : results.length ≤ text.length := by
    have hlength := Cursor.lex_length_le settings.multibyte (Cursor.ofText text)
    rw [hlex] at hlength
    exact hlength.trans (Text.unifyLineEnds_length_le text.toList)
  have ⟨d, _, hw, hrun⟩ :=
    h { lexer := .ofText settings.multibyte text } ⟨.fresh hlex, Nat.zero_add _⟩
  exact ⟨d, hw, fun limit hl => hrun limit (by omega)⟩

theorem Runs.comes_lenient
    (h : Runs settings finish results.length calls results events faults back)
    (hl : settings.lenient)
    (hlex : (Cursor.ofText text).lex settings.multibyte = (results, finish)) :
    ∃ d : Descent, d.warnings = faults ∧ Comes settings text calls (.ok (events, d)) := by
  have ⟨d, hw, hd⟩ := h.comes hlex
  rw [Settings.report_lenient hl] at hd
  exact ⟨d, hw, hd⟩

theorem Runs.comes_strict
    (h : Runs settings finish results.length calls results events faults back)
    (hs : settings.lenient = false)
    (hlex : (Cursor.ofText text).lex settings.multibyte = (results, finish)) :
    ∃ d : Descent, Comes settings text calls (Diagnostic.firstOr (events, d) faults) := by
  have ⟨d, hw, hd⟩ := h.comes hlex
  refine ⟨d, ?_⟩
  cases faults
  case nil => exact hd
  case cons fault faults =>
    rw [Settings.report_strict_cons hs] at hd
    exact hd

end

-- What lenient calls take are the well-formed tokens in their order, and what they record are the
-- faults in front of the token that was looked at last; strict ones end with the first of these. A
-- further look shows what would be taken next, and a repeated one finds nothing more.
theorem delivers_calls (multibyte : Bool) (text : String) (calls : List Call) :
    (∀ n, ((Lexer.ofText multibyte text).calls n).next.1 =
      ((Cursor.ofText text).lex multibyte).1[n]?) ∧
    (∀ settings limit, takeNext settings limit = next settings limit ∧
      (fun _ => ()) <$> skipped settings limit = skipWhitespace settings limit) ∧
    ∃ events d passed left,
      Comes { lenient := true, multibyte } text calls (.ok (events, d)) ∧
      Delivers ((Cursor.ofText text).lex multibyte).2 ((Cursor.ofText text).lex multibyte).1 events
        d.warnings passed left ∧
      (∃ d', Comes { lenient := false, multibyte } text calls
        (Diagnostic.firstOr (events, d') d.warnings)) ∧
      ∃ ahead d₁ d₂ d₃, d₂.warnings = d₁.warnings ∧ d₃.warnings = d₁.warnings ∧
        Comes { lenient := true, multibyte } text (calls ++ [.peek])
          (.ok (events ++ [.seen ahead], d₁)) ∧
        Comes { lenient := true, multibyte } text (calls ++ [.peek] ++ [.peek])
          (.ok (events ++ [.seen ahead] ++ [.seen ahead], d₂)) ∧
        Comes { lenient := true, multibyte } text (calls ++ [.peek] ++ [.next])
          (.ok (events ++ [.seen ahead] ++ [.taken ahead], d₃)) := by
  refine ⟨Lexer.next_calls multibyte text,
    fun settings limit => ⟨takeNext_eq limit, skipped_eq settings limit⟩, ?_⟩
  cases hlex : (Cursor.ofText text).lex multibyte
  case mk results finish =>
    have ⟨events, faults, passed, left, hdelivers, hruns⟩ :=
      @exists_runs finish results.length calls results
    have ⟨ahead, es, back, rest, hlook, hagain, htake⟩ :=
      @exists_looks finish results.length { lenient := true, multibyte } left
    have hlook := (hruns _).append hlook
    have ⟨d, hw, hd⟩ := (hruns { lenient := true, multibyte }).comes_lenient rfl hlex
    have ⟨d', hd'⟩ := (hruns { lenient := false, multibyte }).comes_strict rfl hlex
    have ⟨d₁, hw₁, hd₁⟩ := hlook.comes_lenient rfl hlex
    have ⟨d₂, hw₂, hd₂⟩ := (hlook.append hagain).comes_lenient rfl hlex
    have ⟨d₃, hw₃, hd₃⟩ := (hlook.append htake).comes_lenient rfl hlex
    rw [List.append_nil, ← hw₁] at hw₂ hw₃
    exact ⟨events, d, passed, left, hd, hw ▸ hdelivers, ⟨d', hw ▸ hd'⟩, ahead, d₁, d₂, d₃, hw₂, hw₃,
      hd₁, hd₂, hd₃⟩

end Descent
end Stylesheet
