import Mathlib
import Stylesheet.Proofs.Sheet.Braces
import Stylesheet.Proofs.Sheet.Placement
/-!
Reading two texts in a row. If the first leaves no brace open and ends a statement, the reader is
where it began, but for the nodes that it has; so an error in one part of a style sheet never
reaches the next. Main statement: `Sheet.parse_append`.
-/

namespace Stylesheet

namespace Reader

/-! ### Behind other nodes -/

-- Open at-rules and nodes of the innermost level, with more nodes in front of the outermost.
def stack (ns : Sheet Declaration) : List Frame → Sheet Declaration → List Frame × Sheet Declaration
  | [], nodes => ([], ns ++ nodes)
  | [frame], nodes => ([{ frame with before := ns ++ frame.before }], nodes)
  | frame :: frames, nodes => (frame :: (stack ns frames []).1, nodes)

-- A reader behind other nodes.
def behind (ns : Sheet Declaration) (r : Reader) : Reader :=
  ⟨(stack ns r.frames r.nodes).1, (stack ns r.frames r.nodes).2, r.focus⟩

variable {ns : Sheet Declaration} {r : Reader}

theorem stack_append (frames : List Frame) (nodes more : Sheet Declaration) :
    stack ns frames (nodes ++ more) =
      ((stack ns frames nodes).1, (stack ns frames nodes).2 ++ more) := by
  match frames with
  | [] => simp [stack]
  | [_] => rfl
  | _ :: _ :: _ => rfl

-- An at-rule that is opened takes the nodes in front of it along.
theorem stack_open (name arguments : String) (frames : List Frame) (nodes : Sheet Declaration) :
    stack ns (⟨name, arguments, nodes⟩ :: frames) [] =
      (⟨name, arguments, (stack ns frames nodes).2⟩ :: (stack ns frames nodes).1, []) := by
  match frames with
  | [] => rfl
  | [_] => rfl
  | _ :: _ :: _ => rfl

theorem stack_close (frame : Frame) (frames : List Frame) (nodes : Sheet Declaration) :
    stack ns (frame :: frames) nodes =
      (⟨frame.name, frame.arguments, (stack ns frames frame.before).2⟩ ::
        (stack ns frames frame.before).1, nodes) := by
  match frames with
  | [] => rfl
  | [_] => rfl
  | _ :: _ :: _ => rfl

theorem append_behind (n : Node Declaration) :
    (r.behind ns).append n = (r.append n).behind ns := by
  simp only [append, behind, stack_append]

theorem closeBrace_behind (position : Position) : (r.behind ns).closeBrace position =
    ((r.closeBrace position).1.behind ns, (r.closeBrace position).2) := by
  obtain ⟨frames, nodes, focus⟩ := r
  cases frames
  case nil => rfl
  case cons frame frames => simp only [closeBrace, behind, stack_close, close, stack_append]

theorem openBlock_behind (start : Position) (prelude : List Token) (damaged : Bool) :
    (r.behind ns).openBlock start prelude damaged =
      ((r.openBlock start prelude damaged).1.behind ns,
        (r.openBlock start prelude damaged).2) := by
  cases damaged
  case true => rfl
  case false =>
    simp only [openBlock, Bool.false_eq_true, if_false]
    cases Selector.listOfText (preludeText prelude) <;> rfl

theorem openAtRule_behind (name : String) (prelude : List Token) (damaged : Bool) :
    (r.behind ns).openAtRule name prelude damaged =
      (r.openAtRule name prelude damaged).behind ns := by
  cases damaged
  case true => rfl
  case false =>
    simp only [openAtRule, Bool.false_eq_true, if_false]
    cases holdsDeclarations name
    case true => rfl
    case false =>
      simp only [behind, Bool.false_eq_true, if_false]
      rw [stack_open]

theorem endStatement_behind (name : String) (prelude : List Token) (damaged : Bool) :
    (r.behind ns).endStatement name prelude damaged =
      (r.endStatement name prelude damaged).behind ns := by
  cases damaged
  case true => rfl
  case false => exact append_behind _

theorem selectorStep_behind (start : Position) (prelude : List Token) (damaged : Bool)
    (t : Placed) : (r.behind ns).selectorStep start prelude damaged t =
      ((r.selectorStep start prelude damaged t).1.behind ns,
        (r.selectorStep start prelude damaged t).2) := by
  obtain ⟨token, position⟩ := t
  cases token
  case openBrace => exact openBlock_behind start prelude damaged
  case closeBrace => simp only [selectorStep, closeBrace_behind]
  all_goals rfl

theorem step_behind (t : Placed) :
    (r.behind ns).step t = ((r.step t).1.behind ns, (r.step t).2) := by
  have hfocus : (r.behind ns).focus = r.focus := rfl
  cases hf : r.focus
  case between =>
    simp only [step, hfocus, hf]
    obtain ⟨token, position⟩ := t
    cases token
    case closeBrace => exact closeBrace_behind position
    case whitespace | semicolon | atKeyword => rfl
    all_goals exact selectorStep_behind position [] false ⟨_, position⟩
  case selector start prelude damaged =>
    simp only [step, hfocus, hf]
    exact selectorStep_behind start prelude damaged t
  case atPrelude name prelude damaged =>
    simp only [step, hfocus, hf]
    obtain ⟨token, position⟩ := t
    cases token
    case openBrace => exact congrArg (·, []) (openAtRule_behind name prelude damaged)
    case semicolon => exact congrArg (·, []) (endStatement_behind name prelude damaged)
    case closeBrace => simp only [endStatement_behind, closeBrace_behind]
    all_goals rfl
  case body owner body =>
    simp only [step, hfocus, hf]
    cases (body.step t).closed
    case false => rfl
    case true => exact congrArg (·, _) (append_behind _)
  case skippingBlock depth =>
    simp only [step, hfocus, hf]
    obtain ⟨token, position⟩ := t
    cases token <;> rfl

theorem damage_behind : (r.behind ns).damage = r.damage.behind ns := by
  have hfocus : (r.behind ns).focus = r.focus := rfl
  cases hf : r.focus <;> simp only [damage, hfocus, hf] <;> rfl

theorem read_behind (result : Lexed) :
    (r.behind ns).read result = ((r.read result).1.behind ns, (r.read result).2) := by
  cases result
  case ok t => exact step_behind t
  case error d => exact congrArg (·, [d]) damage_behind

theorem closeAll_behind (finish : Position) (frames : List Frame) (nodes : Sheet Declaration) :
    closeAll finish (stack ns frames nodes).1 (stack ns frames nodes).2 =
      (ns ++ (closeAll finish frames nodes).1, (closeAll finish frames nodes).2) := by
  induction frames generalizing nodes
  case nil => rfl
  case cons frame frames ih =>
    have := ih (frame.before ++ [.atBlock frame.name frame.arguments nodes])
    rw [stack_append] at this
    simp only [stack_close, closeAll, this]

theorem endOfText_behind (finish : Position) : (r.behind ns).endOfText finish =
    (ns ++ (r.endOfText finish).1, (r.endOfText finish).2) := by
  have hfocus : (r.behind ns).focus = r.focus := rfl
  -- What is being read is ended first, and then the at-rules around it.
  have hclose (r : Reader) : closeAll finish (r.behind ns).frames (r.behind ns).nodes =
      (ns ++ (closeAll finish r.frames r.nodes).1, (closeAll finish r.frames r.nodes).2) :=
    closeAll_behind finish r.frames r.nodes
  cases hf : r.focus
  case atPrelude => simp only [endOfText, hfocus, hf, endStatement_behind, hclose]
  case body => simp only [endOfText, hfocus, hf, append_behind, hclose]
  all_goals simp only [endOfText, hfocus, hf, hclose]

theorem readAll_behind (finish : Position) (r : Reader) (results : List Lexed) :
    (r.behind ns).readAll finish results =
      (ns ++ (r.readAll finish results).1, (r.readAll finish results).2) := by
  induction results generalizing r
  case nil => exact endOfText_behind finish
  case cons ih => simp only [readAll, read_behind, ih]

/-! ### Between nodes -/

-- White space between nodes does not matter.
theorem readAll_dropBlanks (finish : Position) (hr : r.focus = .between) (results : List Lexed) :
    r.readAll finish (Cursor.dropBlanks results) = r.readAll finish results := by
  induction results
  case nil => rfl
  case cons result results ih =>
    cases hb : Cursor.isBlank result
    case false => rw [Cursor.dropBlanks, List.dropWhile_cons_of_neg (by simp [hb])]
    case true =>
      rw [Cursor.dropBlanks, List.dropWhile_cons_of_pos (by simp [hb])]
      refine ih.trans ?_
      cases result
      case error => cases hb
      case ok t =>
        obtain ⟨token, position⟩ := t
        cases token
        case whitespace => simp [readAll, read, step, hr]
        all_goals cases hb

-- A reader outside of all braces is one that begins, behind the nodes that it has.
theorem eq_behind (hr : r.focus = .between) (hd : r.depth = 0) :
    r = behind r.nodes {} := by
  obtain ⟨frames, nodes, focus⟩ := r
  obtain rfl : focus = .between := hr
  obtain rfl : frames = [] := by simpa [depth, Focus.depth] using hd
  simp [behind, stack]

theorem readAll_nil (finish : Position) (hr : r.focus = .between) (hd : r.depth = 0) :
    r.readAll finish [] = (r.nodes, []) := by
  obtain ⟨frames, nodes, focus⟩ := r
  obtain rfl : focus = .between := hr
  obtain rfl : frames = [] := by simpa [depth, Focus.depth] using hd
  rfl

end Reader

namespace Sheet

variable {settings : Settings}

theorem parse_lenient (hl : settings.lenient) (text : String) :
    ∃ finish, parse settings text =
      .ok ⟨(Reader.readAll finish {} ((Cursor.ofText text).lex settings.multibyte).1).1,
        (Reader.readAll finish {} ((Cursor.ofText text).lex settings.multibyte).1).2⟩ := by
  refine ⟨((Cursor.ofText text).lex settings.multibyte).2, ?_⟩
  rw [parse_eq, ofLexed_eq, Settings.report_lenient hl]
  rfl

-- A text that ends a statement outside of all braces, however malformed, and a text behind it are
-- read one by one.
theorem parse_append (hl : settings.lenient) {t₁ t₂ : String}
    (hend : Cursor.endsStatement ((Cursor.ofText t₁).lex settings.multibyte).1)
    (hdepth : Cursor.depth ((Cursor.ofText t₁).lex settings.multibyte).1 = 0) :
    ∃ p₁ p₂ p, parse settings t₁ = .ok p₁ ∧ parse settings t₂ = .ok p₂ ∧
      parse settings (t₁ ++ t₂) = .ok p ∧
      p.sheet.unplaced = p₁.sheet.unplaced ++ p₂.sheet.unplaced ∧
      p.warnings.map Diagnostic.unplaced =
        p₁.warnings.map Diagnostic.unplaced ++ p₂.warnings.map Diagnostic.unplaced := by
  obtain ⟨finish₁, h₁⟩ := parse_lenient hl t₁
  obtain ⟨finish₂, h₂⟩ := parse_lenient hl t₂
  obtain ⟨finish, h⟩ := parse_lenient hl (t₁ ++ t₂)
  refine ⟨_, _, _, h₁, h₂, h, ?_⟩
  obtain ⟨front, blank, q, results, hfront, happend, hresults⟩ := @Cursor.exists_lex_append _ _ t₂ hend
  rw [hfront] at hend hdepth ⊢
  rw [happend]
  rw [Cursor.endsStatement_append_blanks] at hend
  rw [Cursor.depth_append_blanks] at hdepth
  -- Behind the first text the reader is where it began.
  generalize hr : Reader.readOn {} front = on
  obtain ⟨r, faults⟩ := on
  have hd : r.depth = 0 := by
    have := @Reader.depth_readOn {} front
    rw [hr] at this
    exact this.trans hdepth
  have hf : r.focus = .between := by
    have := @Reader.focus_readOn {} front rfl hend
    rw [hr] at this
    exact this hd
  have hfirst : Reader.readAll finish₁ {} (front ++ Cursor.blanks blank q) = (r.nodes, faults) := by
    have hdrop : Cursor.dropBlanks (Cursor.blanks blank q) = [] := by cases blank <;> rfl
    rw [@Reader.leads_readOn finish₁, hr, ← Reader.readAll_dropBlanks finish₁ hf, hdrop,
      Reader.readAll_nil finish₁ hf hd, List.append_nil]
  -- From there on it reads the second text, but for where things stand.
  have hsecond := Reader.readAll_unplaced finish r results
  have hbare : Reader.readAll .nowhere {} _ = _ :=
    Reader.readAll_unplaced finish₂ {} ((Cursor.ofText t₂).lex settings.multibyte).1
  have hu : r.unplaced = Reader.behind r.nodes.unplaced {} := by
    conv_lhs => rw [Reader.eq_behind hf hd]
    simp [Reader.behind, Reader.stack, Reader.unplaced, Focus.unplaced]
  rw [← Reader.readAll_dropBlanks _ rfl, ← hresults, Reader.readAll_dropBlanks _ rfl] at hbare
  rw [hu, Reader.readAll_behind, hbare] at hsecond
  rw [hfirst, @Reader.leads_readOn finish, hr]
  simp only [List.map_append]
  exact ⟨(congrArg Prod.fst hsecond).symm,
    congrArg (faults.map Diagnostic.unplaced ++ ·) (congrArg Prod.snd hsecond).symm⟩

-- A malformed selector, a block in a value and a brace that closes nothing, all over with the first
-- text; the second ends in a comment.
theorem parse_append_malformed :
    Cursor.endsStatement
      ((Cursor.ofText "a['\n\x7bb:c\x7b;\x7dd:'\n\x7d\x7d;").lex true).1 ∧
    Cursor.depth ((Cursor.ofText "a['\n\x7bb:c\x7b;\x7dd:'\n\x7d\x7d;").lex true).1 = 0 ∧
    ∃ p₁ p₂ p, parse {} "a['\n\x7bb:c\x7b;\x7dd:'\n\x7d\x7d;" = .ok p₁ ∧
      parse {} "e\x7bf:g/*" = .ok p₂ ∧
      parse {} ("a['\n\x7bb:c\x7b;\x7dd:'\n\x7d\x7d;" ++ "e\x7bf:g/*") = .ok p ∧
      p.sheet.unplaced = p₁.sheet.unplaced ++ p₂.sheet.unplaced ∧
      p.warnings.map Diagnostic.unplaced =
        p₁.warnings.map Diagnostic.unplaced ++ p₂.warnings.map Diagnostic.unplaced := by
  have hend : Cursor.endsStatement
      ((Cursor.ofText "a['\n\x7bb:c\x7b;\x7dd:'\n\x7d\x7d;").lex true).1 := by cbv
  have hdepth :
      Cursor.depth ((Cursor.ofText "a['\n\x7bb:c\x7b;\x7dd:'\n\x7d\x7d;").lex true).1 = 0 := by
    cbv
  exact ⟨hend, hdepth, @parse_append {} rfl _ _ hend hdepth⟩

end Sheet
end Stylesheet
