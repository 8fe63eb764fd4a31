import Stylesheet.Proofs.Sheet.Strictness
/-!
What a reader makes of the rest of a text, whatever the settings. They only say what becomes of the
faults that were found. Main statement: `Sheet.ofLexed_eq`.
-/

namespace Stylesheet

namespace Settings

variable {settings : Settings} {warnings faults more : List Diagnostic}

-- Faults may be reported bit by bit.
theorem report_append : settings.report warnings (faults ++ more) =
    (settings.report warnings faults).bind fun warnings => settings.report warnings more := by
  cases hl : settings.lenient
  case true => simp [report_lenient hl, Except.bind]
  case false =>
    cases faults
    case nil => rfl
    case cons => simp [report_strict_cons hl, Except.bind]

theorem eq_append_of_report {found : List Diagnostic}
    (h : settings.report warnings faults = .ok found) : found = warnings ++ faults := by
  cases hl : settings.lenient
  case true =>
    rw [report_lenient hl] at h
    exact (Except.ok.inj h).symm
  case false =>
    cases faults
    case nil => simpa [report] using h.symm
    case cons => simp [report_strict_cons hl] at h

end Settings

-- Behind a value there may be another declaration.
theorem Body.clause_endValue {b : Body} {name : String} {position finish : Position}
    {tokens : List Placed} {damaged : Bool} :
    (b.endValue name position tokens damaged finish).1.clause = .between := by
  unfold endValue
  split
  · rfl
  · split <;> rfl

namespace Reader

-- The nodes that the rest of a text completes, and the faults in it.
def readAll (finish : Position) : Reader → List Lexed → Sheet Declaration × List Diagnostic
  | r, [] => r.endOfText finish
  | r, result :: results =>
    let all := readAll finish (r.read result).1 results
    (all.1, (r.read result).2 ++ all.2)

-- The end of a run, with the faults that are found there.
def finished (settings : Settings) (finish : Position) :
    Reader × List Diagnostic → Except Diagnostic Parsed
  | (r, warnings) =>
    (settings.report warnings (r.endOfText finish).2).map (⟨(r.endOfText finish).1, ·⟩)

theorem run_finished {settings : Settings} {finish : Position} {results : List Lexed} {r : Reader}
    {warnings : List Diagnostic} :
    (run settings r warnings results).bind (finished settings finish) =
      (settings.report warnings (r.readAll finish results).2).map
        (⟨(r.readAll finish results).1, ·⟩) := by
  induction results generalizing r warnings
  case nil => rfl
  case cons result results ih =>
    cases hr : r.read result
    case mk r' faults =>
      simp only [run, readAll, hr, Settings.report_append]
      cases settings.report warnings faults
      case error => rfl
      case ok => exact ih

-- One reader comes to another, which reads what is left.
def Leads (finish : Position) (r : Reader) (results : List Lexed) (faults : List Diagnostic)
    (r' : Reader) (back : List Lexed) : Prop :=
  r.readAll finish results = ((r'.readAll finish back).1, faults ++ (r'.readAll finish back).2)

namespace Leads

variable {finish : Position} {r r' r'' : Reader} {results middle back : List Lexed}
  {faults more : List Diagnostic} {t : Placed}

theorem refl : Leads finish r results [] r results :=
  rfl

theorem trans (h₁ : Leads finish r results faults r' middle)
    (h₂ : Leads finish r' middle more r'' back) :
    Leads finish r results (faults ++ more) r'' back := by
  rw [Leads, h₁, h₂, List.append_assoc]

theorem of_step (h : r.step t = (r', faults)) :
    Leads finish r (.ok t :: results) faults r' results := by
  simp [Leads, readAll, read, h]

theorem of_error {e : Diagnostic} : Leads finish r (.error e :: results) [e] r.damage results :=
  rfl

-- Malformed tokens where they do no damage.
theorem of_errors (hr : r.damage = r) (es : List Diagnostic) :
    Leads finish r (es.map .error ++ back) es r back := by
  induction es
  case nil => exact refl
  case cons e es ih => exact (hr ▸ of_error).trans ih

-- Malformed tokens where the first does damage.
theorem of_damaging (state : Bool → Reader) (hr : ∀ damaged, (state damaged).damage = state true)
    {damaged : Bool} (es : List Diagnostic) :
    Leads finish (state damaged) (es.map .error ++ back) es (state (damaged || !es.isEmpty)) back := by
  induction es generalizing damaged
  case nil =>
    rw [List.isEmpty_nil, Bool.not_true, Bool.or_false]
    exact refl
  case cons e es ih =>
    have hdamage := @of_error finish (state damaged) (es.map .error ++ back) e
    rw [hr] at hdamage
    simpa using hdamage.trans (@ih true)

-- Readers that take the next token, or the end, alike but for what one finds wrong.
theorem of_step_eq (h : r.step t = ((r'.step t).1, faults ++ (r'.step t).2)) :
    Leads finish r (.ok t :: results) faults r' (.ok t :: results) := by
  simp [Leads, readAll, read, h]

theorem of_endOfText
    (h : r.endOfText finish = ((r'.endOfText finish).1, faults ++ (r'.endOfText finish).2)) :
    Leads finish r [] faults r' [] :=
  h

end Leads

end Reader

namespace Sheet

-- A text is read to its nodes if its faults are reported without an end.
theorem ofLexed_eq (settings : Settings) (results : List Lexed) (finish : Position) :
    ofLexed settings results finish =
      (settings.report [] (Reader.readAll finish {} results).2).map
        (⟨(Reader.readAll finish {} results).1, ·⟩) := by
  rw [← Reader.run_finished, ofLexed]
  cases Reader.run settings {} [] results
  case error => rfl
  case ok reached =>
    obtain ⟨r, warnings⟩ := reached
    cases he : r.endOfText finish
    case mk sheet faults =>
      simp only [bind, Except.bind, Reader.finished, he]
      cases settings.report warnings faults <;> rfl

theorem parse_eq (settings : Settings) (text : String) :
    parse settings text = ofLexed settings ((Cursor.ofText text).lex settings.multibyte).1
      ((Cursor.ofText text).lex settings.multibyte).2 :=
  rfl

end Sheet
end Stylesheet
