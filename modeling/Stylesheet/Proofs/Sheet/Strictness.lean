import Stylesheet.Sheet.Reader
/-!
Lenient and strict reading. A lenient reading always yields a sheet; a strict one of the same text
is that sheet if there was no fault in it, and otherwise the first fault. Main statement:
`Sheet.parse_strict_iff_no_warnings`.
-/

namespace Stylesheet

namespace Settings

variable {settings : Settings} {warnings faults : List Diagnostic}

-- Nothing ends a lenient reading.
theorem report_lenient (h : settings.lenient) :
    settings.report warnings faults = .ok (warnings ++ faults) := by
  cases faults
  case nil => simp [report]
  case cons => simp [report, h]

theorem report_strict_nil : settings.report warnings [] = .ok warnings :=
  rfl

theorem report_strict_cons {fault : Diagnostic} (h : settings.lenient = false) :
    settings.report warnings (fault :: faults) = .error fault := by
  simp [report, h]

end Settings

namespace Diagnostic

-- What a strict reading makes of the faults of a lenient one: the first of them counts.
def firstOr {α : Type} (result : α) : List Diagnostic → Except Diagnostic α
  | [] => .ok result
  | fault :: _ => .error fault

end Diagnostic

namespace Reader

variable {lenient strict : Settings}

-- One run of each kind from the same state. The lenient run collects faults behind those it was
-- given; the strict run was given none, and stops at the first that the lenient run collects.
theorem run_strict_of_lenient (hl : lenient.lenient) (hs : strict.lenient = false)
    (results : List Lexed) (r : Reader) (warnings : List Diagnostic) :
    ∃ r' faults, run lenient r warnings results = .ok (r', warnings ++ faults) ∧
      run strict r [] results = Diagnostic.firstOr (r', []) faults := by
  induction results generalizing r warnings
  case nil => exact ⟨r, [], by simp [run], rfl⟩
  case cons result results ih =>
    cases hr : r.read result
    case mk r₁ found =>
      obtain ⟨r', faults, h₁, h₂⟩ := ih r₁ (warnings ++ found)
      refine ⟨r', found ++ faults, ?_, ?_⟩
      · simp [run, hr, Settings.report_lenient hl, h₁]
      · cases found
        case nil => simp [run, hr, Settings.report_strict_nil, h₂]
        case cons => simp [run, hr, Settings.report_strict_cons hs, Diagnostic.firstOr]

end Reader

namespace Sheet

variable {lenient strict : Settings}

theorem ofLexed_strict_of_lenient (hl : lenient.lenient) (hs : strict.lenient = false)
    (results : List Lexed) (finish : Position) :
    ∃ parsed, ofLexed lenient results finish = .ok parsed ∧
      ofLexed strict results finish = Diagnostic.firstOr parsed parsed.warnings := by
  obtain ⟨r, faults, h₁, h₂⟩ := Reader.run_strict_of_lenient hl hs results {} []
  cases he : r.endOfText finish
  case mk sheet more =>
    refine ⟨⟨sheet, faults ++ more⟩, ?_, ?_⟩
    · simp [ofLexed, h₁, he, bind, Except.bind, Settings.report_lenient hl, pure, Except.pure]
    · cases faults
      -- Without a fault before its end the text may still end too early.
      case nil =>
        cases more
        case nil => simp [ofLexed, h₂, he, bind, Except.bind, Settings.report, Diagnostic.firstOr,
          pure, Except.pure]
        case cons => simp [ofLexed, h₂, he, bind, Except.bind, Settings.report_strict_cons hs,
          Diagnostic.firstOr]
      case cons => simp [ofLexed, h₂, bind, Except.bind, Diagnostic.firstOr]

-- A strict reading succeeds exactly if the lenient reading has no warnings, with the same sheet,
-- positions included; otherwise its error is the first warning.
theorem parse_strict_iff_no_warnings (multibyte : Bool) (text : String) :
    ∃ parsed, parse { lenient := true, multibyte } text = .ok parsed ∧
      ((∃ strict, parse { lenient := false, multibyte } text = .ok strict) ↔
        parsed.warnings = []) ∧
      (parsed.warnings = [] → parse { lenient := false, multibyte } text = .ok parsed) ∧
      ∀ first rest, parsed.warnings = first :: rest →
        (parse { lenient := false, multibyte } text).mapError Error.diagnostic =
          .error (.diagnostic first) := by
  obtain ⟨parsed, h₁, h₂⟩ := @ofLexed_strict_of_lenient { lenient := true, multibyte }
    { lenient := false, multibyte } rfl rfl
    ((Cursor.ofText text).lex multibyte).1 ((Cursor.ofText text).lex multibyte).2
  replace h₂ : parse { lenient := false, multibyte } text =
    Diagnostic.firstOr parsed parsed.warnings := h₂
  refine ⟨parsed, h₁, ?_, ?_, ?_⟩
  · cases hw : parsed.warnings
    case nil => simp [h₂, hw, Diagnostic.firstOr]
    case cons => simp [h₂, hw, Diagnostic.firstOr]
  · intro hw
    rw [h₂, hw, Diagnostic.firstOr]
  · intro first rest hw
    rw [h₂, hw, Diagnostic.firstOr]
    rfl

end Sheet
end Stylesheet
