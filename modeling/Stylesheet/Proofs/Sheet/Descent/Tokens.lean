import Stylesheet.Proofs.Sheet.Reading
import Stylesheet.Proofs.Text.LineEnds
import Stylesheet.Sheet.Descent
/-!
What a part of a descent comes to, and what it costs. `Descent.Descends` tells its value, the faults
it finds and the results of the lexer that it leaves, so that parts are put together by
`Descends.bind`. A round of a loop costs one, and what is taken off the lexer pays for it. A limit
that is above the number of rounds is not come to.
-/

namespace Stylesheet

theorem Text.unifyLineEnds_length_le (cs : List Char) : (unifyLineEnds cs).length ≤ cs.length := by
  fun_induction unifyLineEnds cs
  case case1 => exact Nat.le_refl _
  case case2 ih =>
    simp only [List.length_cons]
    omega
  case case3 ih => simpa using ih

-- Each result of the lexer takes some of the text.
theorem Cursor.lex_length_le (multibyte : Bool) (c : Cursor) :
    (c.lex multibyte).1.length ≤ c.rest.length := by
  fun_induction lex multibyte c
  case case1 => simp
  case case2 hs _ _ hl ih =>
    have := scan_length_lt hs
    rw [hl] at ih
    simp only [List.length_cons] at ih ⊢
    omega

namespace Lexer

-- What a lexer still yields, and where its text ends.
inductive Yields : Lexer → List Lexed → Position → Prop
  | fresh {multibyte : Bool} {c : Cursor} {results : List Lexed} {finish : Position}
    (h : c.lex multibyte = (results, finish)) : Yields ⟨multibyte, c, none⟩ results finish
  | ahead {multibyte : Bool} {c : Cursor} {result : Lexed} {results : List Lexed}
    {finish : Position} (h : c.lex multibyte = (results, finish)) :
    Yields ⟨multibyte, c, some (some result)⟩ (result :: results) finish
  | atEnd {multibyte : Bool} {finish : Position} :
    Yields ⟨multibyte, ⟨[], finish⟩, some none⟩ [] finish

variable {l : Lexer} {results : List Lexed} {finish : Position}

theorem Yields.peek (h : l.Yields results finish) :
    l.peek.1 = results.head? ∧ l.peek.2.Yields results finish ∧
      (results = [] → l.peek.2.cursor.position = finish) := by
  cases h
  case ahead h => exact ⟨rfl, .ahead h, by simp⟩
  case atEnd => exact ⟨rfl, .atEnd, fun _ => rfl⟩
  case fresh multibyte c h =>
    cases hs : c.scan multibyte
    case mk result c' =>
      simp only [Lexer.peek, hs]
      cases result
      case some result =>
        rw [Cursor.lex_of_scan_some hs, Prod.mk.injEq] at h
        obtain ⟨rfl, h⟩ := h
        exact ⟨rfl, .ahead (by rw [← h]), by simp⟩
      case none =>
        rw [Cursor.lex_of_scan_none hs, Prod.mk.injEq] at h
        obtain ⟨rfl, rfl⟩ := h
        obtain ⟨rest, position⟩ := c'
        obtain rfl : rest = [] := Cursor.rest_of_scan_none hs
        exact ⟨rfl, .atEnd, fun _ => rfl⟩

theorem Yields.next (h : l.Yields results finish) :
    l.next.1 = results.head? ∧ l.next.2.Yields results.tail finish := by
  cases h
  case ahead h => exact ⟨rfl, .fresh h⟩
  case atEnd => exact ⟨rfl, .fresh (@Cursor.lex_of_scan_none _ ⟨[], finish⟩ ⟨[], finish⟩ rfl)⟩
  case fresh multibyte c h =>
    cases hs : c.scan multibyte
    case mk result c' =>
      simp only [Lexer.next, hs]
      cases result
      case some result =>
        rw [Cursor.lex_of_scan_some hs, Prod.mk.injEq] at h
        obtain ⟨rfl, h⟩ := h
        exact ⟨rfl, .fresh (by rw [← h]; rfl)⟩
      case none =>
        rw [Cursor.lex_of_scan_none hs, Prod.mk.injEq] at h
        obtain ⟨rfl, rfl⟩ := h
        obtain ⟨rest, position⟩ := c'
        obtain rfl : rest = [] := Cursor.rest_of_scan_none hs
        exact ⟨rfl, .fresh (Cursor.lex_of_scan_none rfl)⟩

end Lexer

namespace Descent

-- Where a descent stands that has so much of a text in front of it.
structure At (finish : Position) (total : Nat) (d : Descent) (results : List Lexed) : Prop where
  yields : d.lexer.Yields results finish
  taken : d.taken + results.length = total

section

variable (settings : Settings) (finish : Position) (total : Nat)

-- Each result that is taken pays for sixteen rounds.
def Descends {α : Type} (x : (limit : Nat) → Descend α) (results : List Lexed) (cost : Int) (a : α)
    (faults : List Diagnostic) (back : List Lexed) : Prop :=
  ∀ d, At finish total d results → ∃ d', At finish total d' back ∧
    d'.warnings = d.warnings ++ faults ∧ d'.idle = d.idle ∧ d.rounds ≤ d'.rounds ∧
    (d'.rounds + 16 * back.length : Int) ≤ d.rounds + 16 * results.length + cost ∧
    ∀ limit, d'.rounds < d.rounds + limit →
      ((x limit).run d).run = some ((settings.report d.warnings faults).map fun _ => (a, d'))

end

variable {settings : Settings} {finish : Position} {total : Nat} {results middle back : List Lexed}
  {cost more : Int} {faults found : List Diagnostic}

namespace Descends

variable {α β : Type} {x : Nat → Descend α} {f : Nat → α → Descend β} {a : α} {b : β}

theorem pure : Descends settings finish total (fun _ => Pure.pure a) results 0 a [] results :=
  fun d h => ⟨d, h, by simp, rfl, Nat.le_refl _, by simp, fun _ _ => rfl⟩

theorem bind (hx : Descends settings finish total x results cost a faults middle)
    (hf : Descends settings finish total (f · a) middle more b found back) :
    Descends settings finish total (fun limit => x limit >>= f limit) results (cost + more) b
      (faults ++ found) back := by
  intro d hd
  obtain ⟨d', hd', hw, hi, hle, hr, hx⟩ := hx d hd
  obtain ⟨d'', hd'', hw', hi', hle', hr', hf⟩ := hf d' hd'
  refine ⟨d'', hd'', by rw [hw', hw, List.append_assoc], hi'.trans hi, Nat.le_trans hle hle',
    by omega, fun limit hl => ?_⟩
  rw [StateT.run_bind, ExceptT.run_bind, hx limit (by omega), Settings.report_append]
  cases hreport : settings.report d.warnings faults
  case error => rfl
  case ok =>
    rw [Settings.eq_append_of_report hreport, ← hw]
    exact hf limit (by omega)

-- What is returned behind a part.
theorem returns (hx : Descends settings finish total x results cost a faults back) (g : α → β) :
    Descends settings finish total (fun limit => x limit >>= fun a => Pure.pure (g a)) results cost
      (g a) faults back := by
  simpa using hx.bind (f := fun _ a => Pure.pure (g a)) pure

theorem weaken {cost' : Int} {faults' : List Diagnostic}
    (h : Descends settings finish total x results cost a faults back) (hc : cost ≤ cost')
    (hf : faults = faults') : Descends settings finish total x results cost' a faults' back := by
  subst hf
  intro d hd
  obtain ⟨d', hd', hw, hi, hle, hr, hx⟩ := h d hd
  exact ⟨d', hd', hw, hi, hle, by omega, hx⟩

-- No descent has more in front of it than there is.
theorem of_le (h : results.length ≤ total →
    Descends settings finish total x results cost a faults back) :
    Descends settings finish total x results cost a faults back := by
  intro d hd
  have := hd.taken
  exact h (by omega) d hd

-- A round of a loop.
theorem loop {y : Nat → Nat → Descend α} (hx : ∀ limit, x (limit + 1) = round >>= y limit)
    (h : results.length ≤ total → Descends settings finish total (y · (total - results.length))
      results cost a faults back) :
    Descends settings finish total x results (1 + cost) a faults back := by
  refine of_le fun hle d hd => ?_
  have htaken : d.taken = total - results.length := by
    have := hd.taken
    omega
  obtain ⟨d', hd', hw, hi, hle, hr, hy⟩ := h hle { d with rounds := d.rounds + 1 } ⟨hd.yields, hd.taken⟩
  refine ⟨d', hd', hw, hi, Nat.le_of_succ_le hle, by simp only at hr; omega, fun limit hl => ?_⟩
  cases limit
  case zero => simp only at hle; omega
  case succ limit =>
    rw [hx, ← hy limit (by simp only; omega), ← htaken]
    rfl

-- A round that takes something does not idle.
theorem again (hlt : middle.length < results.length) (hle : results.length ≤ total)
    (h : Descends settings finish total x middle cost a faults back) :
    Descends settings finish total (fun limit => again (total - results.length) >>= fun _ => x limit)
      middle cost a faults back := by
  have hagain : Descends settings finish total (fun _ => Descent.again (total - results.length)) middle
      0 () [] middle := by
    intro d hd
    have hne : d.taken ≠ total - results.length := by
      have := hd.taken
      omega
    exact ⟨d, hd, by simp, rfl, Nat.le_refl _, by simp, fun _ _ => by simp [Descent.again, hne]; rfl⟩
  simpa using hagain.bind h

end Descends

theorem descends_look_nil :
    Descends settings finish total (fun _ => look) [] 0 (.inl finish) [] [] := by
  intro d hd
  obtain ⟨hp, hy, hf⟩ := hd.yields.peek
  refine ⟨{ d with lexer := d.lexer.peek.2 }, ⟨hy, hd.taken⟩, by simp, rfl, Nat.le_refl _, by simp,
    fun _ _ => ?_⟩
  cases hl : d.lexer.peek
  case mk result lexer =>
    rw [hl] at hp hf
    obtain rfl : result = none := hp
    obtain rfl : lexer.cursor.position = finish := hf rfl
    simp [look, modifyGet, MonadStateOf.modifyGet, StateT.modifyGet, StateT.run, hl]
    rfl

theorem descends_look_cons {result : Lexed} : Descends settings finish total (fun _ => look)
    (result :: results) 0 (.inr result) [] (result :: results) := by
  intro d hd
  obtain ⟨hp, hy, -⟩ := hd.yields.peek
  refine ⟨{ d with lexer := d.lexer.peek.2 }, ⟨hy, hd.taken⟩, by simp, rfl, Nat.le_refl _, by simp,
    fun _ _ => ?_⟩
  cases hl : d.lexer.peek
  case mk found lexer =>
    rw [hl] at hp
    obtain rfl : found = some result := hp
    simp [look, modifyGet, MonadStateOf.modifyGet, StateT.modifyGet, StateT.run, hl]
    rfl

theorem descends_take : Descends settings finish total (fun _ => take) results
    (16 * (results.tail.length - results.length)) results.head? [] results.tail := by
  intro d hd
  obtain ⟨hp, hy⟩ := hd.yields.next
  have htaken : d.taken + results.head?.toList.length + results.tail.length = total := by
    rw [← hd.taken]
    cases results <;> simp; omega
  refine ⟨{ d with lexer := d.lexer.next.2, taken := d.taken + results.head?.toList.length },
    ⟨hy, htaken⟩, by simp, rfl, Nat.le_refl _, by simp; omega, fun _ _ => ?_⟩
  cases hl : d.lexer.next
  case mk found lexer =>
    rw [hl] at hp
    obtain rfl : found = results.head? := hp
    simp [take, modifyGet, MonadStateOf.modifyGet, StateT.modifyGet, StateT.run, hl]
    rfl

theorem descends_recover (fault : Diagnostic) :
    Descends settings finish total (fun _ => recover settings fault) results 0 () [fault] results := by
  intro d hd
  refine ⟨{ d with warnings := d.warnings ++ [fault] }, ⟨hd.yields, hd.taken⟩, rfl, rfl,
    Nat.le_refl _, by simp, fun _ _ => ?_⟩
  cases hl : settings.lenient <;> simp [recover, Settings.report, hl] <;> rfl

theorem Descends.watch {α : Type} {x : Nat → Descend α} {a : α}
    (h : Descends settings finish total x results cost a faults back) :
    Descends settings finish total (fun limit => watch (x limit)) results cost (a, !faults.isEmpty)
      faults back := by
  intro d hd
  obtain ⟨d', hd', hw, hi, hle, hr, hx⟩ := h d hd
  refine ⟨d', hd', hw, hi, hle, hr, fun limit hl => ?_⟩
  have hcount : (d'.warnings.length != d.warnings.length) = !faults.isEmpty := by
    rw [hw, List.length_append]
    cases faults <;> simp
  change ((Descent.watch (x limit)).run d).run = _
  rw [Descent.watch, StateT.run_bind, StateT.run_get, pure_bind, StateT.run_bind, ExceptT.run_bind,
    hx limit hl]
  cases settings.report d.warnings faults
  case error => rfl
  case ok =>
    rw [← hcount]
    rfl

/-! ### Tokens -/

variable {t : Placed} {rest : List Lexed} {es : List Diagnostic}

theorem length_lt_errors :
    rest.length < (es.map Except.error ++ Except.ok t :: rest : List Lexed).length := by
  simp only [List.length_append, List.length_cons]
  omega

theorem length_le_errors :
    rest.length ≤ (es.map Except.error ++ rest : List Lexed).length := by
  simp

-- Behind malformed tokens is a well-formed one or the end.
theorem exists_errors (results : List Lexed) : ∃ es : List Diagnostic,
    results = es.map .error ∨ ∃ t rest, results = es.map .error ++ .ok t :: rest := by
  induction results
  case nil => exact ⟨[], .inl rfl⟩
  case cons result results ih =>
    cases result
    case ok t => exact ⟨[], .inr ⟨t, results, rfl⟩⟩
    case error e =>
      obtain ⟨es, rfl | ⟨t, rest, rfl⟩⟩ := ih
      · exact ⟨e :: es, .inl rfl⟩
      · exact ⟨e :: es, .inr ⟨t, rest, rfl⟩⟩

-- Induction from one well-formed token to the next, or to any behind that.
theorem tokens_induction {P : List Lexed → Prop} (h₁ : ∀ es : List Diagnostic, P (es.map .error))
    (h₂ : ∀ (es : List Diagnostic) (t : Placed) (rest : List Lexed),
      (∀ back, back.length ≤ rest.length → P back) → P (es.map .error ++ .ok t :: rest))
    (results : List Lexed) : P results := by
  induction hn : results.length using Nat.strongRecOn generalizing results
  case ind n ih =>
    obtain ⟨es, rfl | ⟨t, rest, rfl⟩⟩ := exists_errors results
    · exact h₁ es
    · refine h₂ es t rest fun back hb => ih _ ?_ back rfl
      simp only [← hn, List.length_append, List.length_cons]
      omega

-- Malformed tokens are taken and reported by looking at what is behind them.
theorem descends_peek_errors {ahead : Ahead} (es : List Diagnostic)
    (h : Descends settings finish total (peek settings) back 1 ahead [] back) :
    Descends settings finish total (peek settings) (es.map .error ++ back) 1 ahead es back := by
  induction es
  case nil => exact h
  case cons e es ih =>
    refine .weaken (.loop (fun _ => rfl) fun hle => .bind descends_look_cons (.bind descends_take
      (.bind (descends_recover e) (.again ?_ hle ih)))) ?_ rfl
    · simp
    · simp only [List.tail_cons, List.length_cons]
      omega

theorem descends_peek_nil :
    Descends settings finish total (peek settings) [] 1 ⟨none, finish⟩ [] [] :=
  .weaken (.loop (fun _ => rfl) fun _ => .bind descends_look_nil .pure) (by simp) rfl

theorem descends_peek_end (es : List Diagnostic) :
    Descends settings finish total (peek settings) (es.map .error) 1 ⟨none, finish⟩ es [] := by
  have h := @descends_peek_errors settings finish total [] _ es descends_peek_nil
  rwa [List.append_nil] at h

theorem descends_peek_cons : Descends settings finish total (peek settings) (.ok t :: rest) 1
    ⟨some t.token, t.position⟩ [] (.ok t :: rest) :=
  .weaken (.loop (fun _ => rfl) fun _ => .bind descends_look_cons .pure) (by simp) rfl

theorem descends_next_nil (es : List Diagnostic) :
    Descends settings finish total (next settings) (es.map .error) 1 ⟨none, finish⟩ es [] :=
  .weaken (.bind (descends_peek_end es) (.bind descends_take .pure)) (by simp) (by simp)

theorem descends_next_cons (es : List Diagnostic) :
    Descends settings finish total (next settings) (es.map .error ++ .ok t :: rest) (-15)
      ⟨some t.token, t.position⟩ es rest :=
  .weaken (.bind (descends_peek_errors es descends_peek_cons) (.bind descends_take .pure))
    (by simp only [List.tail_cons, List.length_cons]; omega) (by simp)

-- The next token, already looked at.
theorem descends_next : Descends settings finish total (next settings) (.ok t :: rest) (-15)
    ⟨some t.token, t.position⟩ [] rest :=
  descends_next_cons []

namespace Descends

variable {α : Type} {a : α} {x : Nat → Descend α} {y : Nat → Nat → Ahead → Descend α}

-- A round that looks at what is ahead first.
theorem ahead_nil (hx : ∀ limit, x (limit + 1) =
      round >>= fun before => peek settings limit >>= y limit before) (es : List Diagnostic)
    (h : ∀ before, Descends settings finish total (y · before ⟨none, finish⟩) [] cost a faults back) :
    Descends settings finish total x (es.map .error) (2 + cost) a (es ++ faults) back :=
  .weaken (.loop hx fun _ => .bind (descends_peek_end es) (h _)) (by omega) rfl

theorem ahead_cons (hx : ∀ limit, x (limit + 1) =
      round >>= fun before => peek settings limit >>= y limit before) {es : List Diagnostic}
    (hr : results = es.map .error ++ .ok t :: rest)
    (h : results.length ≤ total → Descends settings finish total
      (y · (total - results.length) ⟨some t.token, t.position⟩) (.ok t :: rest) cost a faults back) :
    Descends settings finish total x results (2 + cost) a (es ++ faults) back := by
  subst hr
  exact .weaken (.loop hx fun hle => .bind (descends_peek_errors es descends_peek_cons) (h hle))
    (by omega) rfl

end Descends

end Descent
end Stylesheet
