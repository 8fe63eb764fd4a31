import Stylesheet.Proofs.Sheet.Nodes
/-!
What sheets are like that are read: the values are shaped as those of a reader, and the names are in
the letter case that they are kept in. Each token keeps that up. Main statement:
`Sheet.areShaped_of_parse`.
-/

namespace Stylesheet

theorem propertyName_propertyName (name : String) :
    propertyName (propertyName name) = propertyName name := by
  unfold propertyName
  split
  case isTrue => rfl
  case isFalse => rw [Text.lower_lower, ite_self]

theorem Declaration.isShaped_of_ofTokens {name : String} {position finish : Position}
    {tokens : List Placed} {d : Declaration} (hn : propertyName name = name)
    (h : ofTokens name position tokens finish = .ok d) : d.IsShaped := by
  simp only [ofTokens] at h
  split at h
  case isTrue => cases h
  case isFalse =>
    cases hv : Value.ofTokens (splitImportant tokens).2 finish
    case error => simp [hv, Except.map] at h
    case ok v =>
      simp only [hv, Except.map, Except.ok.injEq] at h
      subst h
      exact ⟨hn, Value.hasShape_of_ofTokens hv⟩

namespace Body

variable {b : Body} {t : Placed}

structure IsShaped (b : Body) : Prop where
  done : ∀ d ∈ b.done, d.IsShaped
  clause : match b.clause with
    | .afterName name _ | .value name _ _ _ => propertyName name = name
    | _ => True

theorem isShaped_skip (h : ∀ d ∈ b.done, d.IsShaped) (t : Token) (faults : List Diagnostic) :
    (b.skip t faults).body.IsShaped := by
  unfold skip
  split <;> exact ⟨h, trivial⟩

theorem isShaped_endValue {name : String} {position finish : Position} {tokens : List Placed}
    {damaged : Bool} (h : ∀ d ∈ b.done, d.IsShaped) (hn : propertyName name = name) :
    (b.endValue name position tokens damaged finish).1.IsShaped := by
  unfold endValue
  split
  case isTrue => exact ⟨h, trivial⟩
  case isFalse =>
    split
    case h_1 d hd =>
      refine ⟨?_, trivial⟩
      simp only [List.forall_mem_append, List.forall_mem_singleton]
      exact ⟨h, Declaration.isShaped_of_ofTokens hn hd⟩
    case h_2 => exact ⟨h, trivial⟩

theorem isShaped_step (h : b.IsShaped) (t : Placed) : (b.step t).body.IsShaped := by
  have hclause := h.clause
  unfold step
  split
  case h_1 =>
    split
    case h_3 => exact h
    case h_4 name _ => exact ⟨h.done, propertyName_propertyName name⟩
    case h_5 => exact isShaped_skip h.done ..
    all_goals exact ⟨h.done, trivial⟩
  case h_2 name position hc =>
    rw [hc] at hclause
    split
    case h_1 => exact ⟨h.done, h.clause⟩
    case h_2 => exact ⟨h.done, hclause⟩
    case h_3 => exact isShaped_skip h.done ..
  case h_3 hc =>
    rw [hc] at hclause
    split
    case h_1 | h_2 => exact isShaped_endValue h.done hclause
    case h_3 => exact isShaped_skip h.done ..
    case h_4 => exact ⟨h.done, hclause⟩
  case h_4 => exact isShaped_skip h.done ..
  case h_5 depth _ =>
    split
    case h_2 => cases depth <;> exact ⟨h.done, trivial⟩
    case h_3 => exact ⟨h.done, h.clause⟩
    all_goals exact ⟨h.done, trivial⟩

theorem isShaped_damage (h : b.IsShaped) : b.damage.IsShaped := by
  have hclause := h.clause
  unfold damage
  split
  case h_1 hc =>
    rw [hc] at hclause
    exact ⟨h.done, hclause⟩
  case h_2 => exact h

theorem isShaped_endOfText (h : b.IsShaped) (finish : Position) :
    ∀ d ∈ (b.endOfText finish).1, d.IsShaped := by
  have hclause := h.clause
  unfold endOfText
  dsimp only
  split
  case h_2 name position tokens damaged hc =>
    rw [hc] at hclause
    exact (isShaped_endValue h.done hclause).done
  all_goals exact h.done

end Body

namespace Reader

variable {r : Reader} {t : Placed}

-- What is being read when every name and value so far is shaped.
def FocusIsShaped : Focus → Prop
  | .atPrelude name _ _ => Text.lower name = name
  | .body (.block ..) body => body.IsShaped
  | .body (.atRule name _) body =>
    Text.lower name = name ∧ holdsDeclarations name ∧ body.IsShaped
  | _ => True

structure FrameIsShaped (frame : Frame) : Prop where
  name : Text.lower frame.name = frame.name
  holds : holdsDeclarations frame.name = false
  before : Node.AreShaped frame.before

structure IsShaped (r : Reader) : Prop where
  frames : ∀ frame ∈ r.frames, FrameIsShaped frame
  nodes : Node.AreShaped r.nodes
  focus : FocusIsShaped r.focus

theorem areShaped_append {ns ms : Sheet Declaration} (h₁ : Node.AreShaped ns)
    (h₂ : Node.AreShaped ms) : Node.AreShaped (ns ++ ms) := by
  induction ns
  case nil => exact h₂
  case cons n ns ih =>
    rw [Node.AreShaped] at h₁
    rw [List.cons_append, Node.AreShaped]
    exact ⟨h₁.1, ih h₁.2⟩

theorem areShaped_singleton {n : Node Declaration} (h : n.IsShaped) : Node.AreShaped [n] := by
  rw [Node.AreShaped, Node.AreShaped]
  exact ⟨h, trivial⟩

theorem IsShaped.look (h : r.IsShaped) {focus : Focus} (hf : FocusIsShaped focus) :
    (r.look focus).IsShaped :=
  ⟨h.frames, h.nodes, hf⟩

theorem IsShaped.append (h : r.IsShaped) {n : Node Declaration} (hn : n.IsShaped) :
    (r.append n).IsShaped :=
  ⟨h.frames, areShaped_append h.nodes (areShaped_singleton hn), trivial⟩

theorem isShaped_closeBrace (h : r.IsShaped) (position : Position) :
    (r.closeBrace position).1.IsShaped := by
  unfold closeBrace
  split
  case h_1 frame frames hf =>
    obtain ⟨hframe, hframes⟩ := List.forall_mem_cons.mp (hf ▸ h.frames)
    refine ⟨hframes, areShaped_append hframe.before (areShaped_singleton ?_), trivial⟩
    rw [Node.IsShaped]
    exact ⟨hframe.name, hframe.holds, h.nodes⟩
  case h_2 => exact h.look trivial

theorem isShaped_node {owner : Owner} {body : Body} {rules : List Declaration}
    (h : FocusIsShaped (.body owner body)) (hd : ∀ d ∈ rules, d.IsShaped) :
    (owner.node rules).IsShaped := by
  cases owner
  case block =>
    rw [Owner.node, Node.IsShaped]
    exact hd
  case atRule =>
    rw [Owner.node, Node.IsShaped]
    exact ⟨h.1, h.2.1, hd⟩

theorem body_isShaped {owner : Owner} {body : Body} (h : FocusIsShaped (.body owner body)) :
    body.IsShaped := by
  cases owner
  case block => exact h
  case atRule => exact h.2.2

theorem focusIsShaped_body {owner : Owner} {body body' : Body}
    (h : FocusIsShaped (.body owner body)) (hb : body'.IsShaped) :
    FocusIsShaped (.body owner body') := by
  cases owner
  case block => exact hb
  case atRule => exact ⟨h.1, h.2.1, hb⟩

theorem isShaped_selectorStep (h : r.IsShaped) (start : Position) (prelude : List Token)
    (damaged : Bool) (t : Placed) : (r.selectorStep start prelude damaged t).1.IsShaped := by
  unfold selectorStep
  dsimp only
  split
  case h_1 =>
    unfold openBlock
    split
    case isTrue => exact h.look trivial
    case isFalse =>
      split
      case h_1 => exact h.look ⟨List.forall_mem_nil _, trivial⟩
      case h_2 => exact h.look trivial
  case h_2 => exact h.look trivial
  case h_3 => exact isShaped_closeBrace h _
  case h_4 => exact h.look trivial

theorem isShaped_openAtRule (h : r.IsShaped) {name : String} (hn : Text.lower name = name)
    (prelude : List Token) (damaged : Bool) : (r.openAtRule name prelude damaged).IsShaped := by
  unfold openAtRule
  split
  case isTrue => exact h.look trivial
  case isFalse =>
    split
    case isTrue hh => exact h.look ⟨hn, hh, List.forall_mem_nil _, trivial⟩
    case isFalse hh =>
      refine ⟨List.forall_mem_cons.mpr ⟨⟨hn, Bool.eq_false_iff.mpr hh, h.nodes⟩, h.frames⟩, ?_,
        trivial⟩
      rw [Node.AreShaped]
      trivial

theorem isShaped_endStatement (h : r.IsShaped) {name : String} (hn : Text.lower name = name)
    (prelude : List Token) (damaged : Bool) : (r.endStatement name prelude damaged).IsShaped := by
  unfold endStatement
  split
  case isTrue => exact h.look trivial
  case isFalse =>
    refine h.append ?_
    rw [Node.IsShaped]
    exact hn

theorem isShaped_step (h : r.IsShaped) (t : Placed) : (r.step t).1.IsShaped := by
  have hfocus := h.focus
  unfold step
  split
  case h_1 =>
    split
    case h_1 | h_3 => exact h
    case h_2 => exact isShaped_closeBrace h _
    case h_4 name _ => exact h.look (Text.lower_lower name)
    case h_5 => exact isShaped_selectorStep h ..
  case h_2 => exact isShaped_selectorStep h ..
  case h_3 hf =>
    rw [hf] at hfocus
    split
    case h_1 => exact isShaped_openAtRule h hfocus ..
    case h_2 => exact isShaped_endStatement h hfocus ..
    case h_3 => exact isShaped_closeBrace (isShaped_endStatement h hfocus ..) _
    case h_4 => exact h.look hfocus
  case h_4 owner body hf =>
    rw [hf] at hfocus
    have hbody := Body.isShaped_step (body_isShaped hfocus) t
    dsimp only
    split
    case isTrue => exact h.append (isShaped_node hfocus hbody.done)
    case isFalse => exact h.look (focusIsShaped_body hfocus hbody)
  case h_5 depth hf =>
    split
    case h_1 => exact h.look trivial
    case h_2 => cases depth <;> exact h.look trivial
    case h_3 => exact h

theorem isShaped_damage (h : r.IsShaped) : r.damage.IsShaped := by
  have hfocus := h.focus
  unfold damage
  split
  case h_1 => exact h.look trivial
  case h_2 hf =>
    rw [hf] at hfocus
    exact h.look hfocus
  case h_3 hf =>
    rw [hf] at hfocus
    exact h.look (focusIsShaped_body hfocus (Body.isShaped_damage (body_isShaped hfocus)))
  case h_4 | h_5 => exact h

-- What a run keeps up, one result of the lexer after the other.
theorem isShaped_run {settings : Settings} {warnings warnings' : List Diagnostic}
    {results : List Lexed} {r' : Reader} (h : r.IsShaped)
    (hr : run settings r warnings results = .ok (r', warnings')) : r'.IsShaped := by
  induction results generalizing r warnings
  case nil =>
    cases hr
    exact h
  case cons result results ih =>
    have hread : (r.read result).1.IsShaped := by
      cases result
      case ok t => exact isShaped_step h t
      case error => exact isShaped_damage h
    simp only [run] at hr
    split at hr
    case h_1 => exact ih hread hr
    case h_2 => cases hr

theorem areShaped_closeAll (finish : Position) {frames : List Frame} {nodes : Sheet Declaration}
    (hf : ∀ frame ∈ frames, FrameIsShaped frame) (hn : Node.AreShaped nodes) :
    Node.AreShaped (closeAll finish frames nodes).1 := by
  induction frames generalizing nodes
  case nil => exact hn
  case cons frame frames ih =>
    obtain ⟨hframe, hframes⟩ := List.forall_mem_cons.mp hf
    refine ih hframes (areShaped_append hframe.before (areShaped_singleton ?_))
    rw [Node.IsShaped]
    exact ⟨hframe.name, hframe.holds, hn⟩

theorem areShaped_endOfText (h : r.IsShaped) (finish : Position) :
    Node.AreShaped (r.endOfText finish).1 := by
  have hfocus := h.focus
  unfold endOfText
  dsimp only
  split
  case h_2 name prelude damaged hf =>
    rw [hf] at hfocus
    have hend := isShaped_endStatement h hfocus prelude damaged
    exact areShaped_closeAll finish hend.frames hend.nodes
  case h_3 owner body hf =>
    rw [hf] at hfocus
    have hend := h.append (isShaped_node hfocus
      (Body.isShaped_endOfText (body_isShaped hfocus) finish))
    exact areShaped_closeAll finish hend.frames hend.nodes
  all_goals exact areShaped_closeAll finish h.frames h.nodes

end Reader

namespace Sheet

-- Whatever is read is shaped.
theorem areShaped_of_parse {settings : Settings} {text : String} {parsed : Parsed}
    (h : parse settings text = .ok parsed) : Node.AreShaped parsed.sheet := by
  simp only [parse, ofLexed] at h
  have hstart : Reader.IsShaped {} := ⟨List.forall_mem_nil _, by rw [Node.AreShaped]; trivial, trivial⟩
  cases hr : Reader.run settings {} [] ((Cursor.ofText text).lex settings.multibyte).1
  case error => simp [hr, bind, Except.bind] at h
  case ok result =>
    obtain ⟨r, warnings⟩ := result
    have hend := Reader.areShaped_endOfText (Reader.isShaped_run hstart hr)
      ((Cursor.ofText text).lex settings.multibyte).2
    simp only [hr, bind, Except.bind] at h
    split at h
    case h_1 => cases h
    case h_2 =>
      cases h
      exact hend

end Sheet
end Stylesheet
