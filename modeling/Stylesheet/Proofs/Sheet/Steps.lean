import Stylesheet.Proofs.Sheet.Nodes
import Stylesheet.Proofs.Sheet.Reading
import Stylesheet.Proofs.Token.Order
import Stylesheet.Proofs.Value.Faults
/-!
What one token does to a reader. Outside of declarations it leaves those that were read as they are,
and within them the body takes it in. A fault is found at the token, or at one that was taken in
before and is held for this; then nothing is held any more. Main statements: `Reader.outside_step`,
`Reader.reports_read`.
-/

namespace Stylesheet

variable {hold hold' : List Position} {p : Position} {faults : List Diagnostic}

/-! ### Faults of a declaration -/

theorem mem_of_mem_splitImportant {t : Placed} {ts : List Placed}
    (h : t ∈ (splitImportant ts).2) : t ∈ ts := by
  unfold splitImportant at h
  split at h
  case h_1 last before hlast =>
    split at h
    case h_1 bang value _ hbang =>
      split at h
      case isTrue =>
        have hvalue : value <:+ before :=
          (List.suffix_cons bang value).trans (hbang ▸ List.dropWhile_suffix _)
        have hbefore : before <:+ ts.reverse :=
          (List.suffix_cons last before).trans (hlast ▸ List.dropWhile_suffix _)
        exact List.mem_reverse.mp ((hvalue.trans hbefore).mem (List.mem_reverse.mp h))
      case isFalse => exact h
    case h_2 => exact h
  case h_2 => exact h

namespace Declaration

variable {name : String} {position finish : Position} {ts : List Placed}

theorem position_of_ofTokens_error {e : Diagnostic}
    (h : ofTokens name position ts finish = .error e) :
    e.position = finish ∨ ∃ t ∈ ts, e.position = t.position := by
  simp only [ofTokens] at h
  split at h
  case isTrue =>
    cases h
    exact .inl rfl
  case isFalse =>
    cases hv : Value.ofTokens (splitImportant ts).2 finish
    case ok => simp [hv, Except.map] at h
    case error e' =>
      obtain rfl : e' = e := by simpa [hv, Except.map] using h
      refine (Value.position_of_ofTokens_error hv).imp_right ?_
      rintro ⟨t, ht, he⟩
      exact ⟨t, mem_of_mem_splitImportant ht, he⟩

theorem header_of_ofTokens {d : Declaration} (h : ofTokens name position ts finish = .ok d) :
    d.name = name ∧ d.position = position := by
  simp only [ofTokens] at h
  split at h
  case isTrue => cases h
  case isFalse =>
    cases hv : Value.ofTokens (splitImportant ts).2 finish
    case error => simp [hv, Except.map] at h
    case ok v =>
      simp only [hv, Except.map, Except.ok.injEq] at h
      subst h
      exact ⟨rfl, rfl⟩

end Declaration

/-! ### What is held -/

-- The positions where what was taken in may yet turn out faulty: those of a value's tokens, or
-- where selectors begin. What is damaged was reported already.
def Clause.held : Clause → List Position
  | .value _ _ tokens false => tokens.map Placed.position
  | _ => []

def Focus.held : Focus → List Position
  | .selector start _ false => [start]
  | .body _ b => b.clause.held
  | _ => []

-- The faults found at a position. Either there are none, and the position may be held, or all are
-- in one place.
inductive Reports (hold : List Position) (p : Position) : List Diagnostic → List Position → Prop
  | nothing {hold' : List Position} (h : ∀ x ∈ hold', x ∈ hold ∨ x = p) : Reports hold p [] hold'
  | faults {faults : List Diagnostic} {x : Position} (hx : x ∈ hold ∨ x = p)
    (hf : ∀ d ∈ faults, d.position = x) : Reports hold p faults []

namespace Reports

theorem none : Reports hold p [] [] :=
  nothing (List.forall_mem_nil _)

theorem here {fault : SyntaxFault} : Reports hold p [.atToken fault p] [] :=
  faults (.inr rfl) (List.forall_mem_singleton.mpr rfl)

theorem release (h : Reports hold p faults hold') : Reports hold p faults [] := by
  cases h
  case nothing => exact none
  case faults hx hf => exact .faults hx hf

theorem mem_of_held (h : Reports hold p faults hold') : ∀ x ∈ hold', x ∈ hold ∨ x = p := by
  cases h
  case nothing h => exact h
  case faults => exact List.forall_mem_nil _

theorem position_of_mem (h : Reports hold p faults hold') :
    ∀ d ∈ faults, d.position ∈ hold ∨ d.position = p := by
  cases h
  case nothing => exact List.forall_mem_nil _
  case faults hx hf => exact fun d hd => hf d hd ▸ hx

end Reports

namespace Body

variable {b : Body} {t : Placed}

theorem reports_skip {token : Token}
    (h : Reports hold p faults hold') :
    Reports hold p (b.skip token faults).faults (b.skip token faults).body.clause.held := by
  unfold skip
  split <;> exact h.release

theorem reports_endValue {name : String} {position finish : Position} {tokens : List Placed}
    {damaged : Bool} : Reports (Clause.value name position tokens damaged).held finish
      (b.endValue name position tokens damaged finish).2 [] := by
  unfold endValue
  split
  case isTrue => exact .none
  case isFalse hd =>
    obtain rfl : damaged = false := by simpa using hd
    split
    case h_1 => exact .none
    case h_2 e he =>
      refine .faults ?_ (List.forall_mem_singleton.mpr rfl)
      rcases Declaration.position_of_ofTokens_error he with hf | ⟨t, ht, hp⟩
      · exact .inr hf
      · exact .inl (hp ▸ List.mem_map_of_mem ht)

theorem reports_step :
    Reports b.clause.held t.position (b.step t).faults (b.step t).body.clause.held := by
  unfold step
  split
  case h_1 hc =>
    split
    case h_3 =>
      rw [hc]
      exact .none
    case h_5 => exact reports_skip .here
    all_goals exact .none
  case h_2 hc =>
    split
    case h_1 =>
      rw [goOn, hc]
      exact .none
    case h_2 => exact .none
    case h_3 => exact reports_skip .here
  case h_3 name position tokens damaged hc =>
    rw [hc]
    split
    case h_1 | h_2 =>
      dsimp only
      rw [clause_endValue]
      exact reports_endValue
    case h_3 => exact reports_skip .here
    case h_4 =>
      refine .nothing fun x hx => ?_
      cases damaged
      case true => cases hx
      case false => simpa [goOn, Clause.held] using hx
  case h_4 => exact reports_skip .none
  case h_5 depth hc =>
    split
    case h_2 => cases depth <;> exact .none
    case h_3 =>
      rw [goOn, hc]
      exact .none
    all_goals exact .none

-- Where the text ends, what was being read may turn out faulty, and the brace is missing.
theorem reports_endOfText : ∃ faults,
    (b.endOfText p).2 = faults ++ [.atToken .unterminatedBlock p] ∧
      Reports b.clause.held p faults [] := by
  unfold endOfText
  dsimp only
  split
  case h_1 => exact ⟨_, rfl, .here⟩
  case h_2 hc => exact ⟨_, rfl, hc ▸ reports_endValue⟩
  case h_3 => exact ⟨[], rfl, .none⟩

theorem held_damage : b.damage.clause.held = [] := by
  unfold damage
  split
  case h_1 => rfl
  case h_2 hc =>
    cases h : b.clause
    case value => exact absurd h (hc _ _ _ _)
    all_goals rfl

end Body

/-! ### Outside of declarations -/

-- The declarations of nodes, in order.
def Sheet.allDeclarations (ns : Sheet Declaration) : List Declaration :=
  ns.ruleSets.flatten

theorem Sheet.allDeclarations_append (ns ms : Sheet Declaration) :
    Sheet.allDeclarations (ns ++ ms) = allDeclarations ns ++ allDeclarations ms := by
  simp [allDeclarations, Sheet.ruleSets, Node.ruleSetsAll_append]

theorem Sheet.allDeclarations_node (owner : Owner) (rules : List Declaration) :
    Sheet.allDeclarations [owner.node rules] = rules := by
  cases owner <;>
    simp [allDeclarations, Sheet.ruleSets, Owner.node, Node.ruleSetsAll, Node.ruleSets]

-- The body that is being read; outside of bodies, one without anything in it.
def Focus.inner : Focus → Body
  | .body _ b => b
  | _ => {}

namespace Reader

variable {r : Reader} {t : Placed} {prelude : List Token} {damaged : Bool} {focus : Focus}

-- The declarations in front of the open at-rules.
def outer : List Frame → List Declaration
  | [] => []
  | frame :: frames => outer frames ++ Sheet.allDeclarations frame.before

-- The declarations of the nodes that were read.
def settled (r : Reader) : List Declaration :=
  outer r.frames ++ Sheet.allDeclarations r.nodes

theorem settled_close {frame : Frame} {frames : List Frame} (h : r.frames = frame :: frames) :
    (r.close frame frames).settled = r.settled := by
  have hnode : Sheet.allDeclarations [.atBlock frame.name frame.arguments r.nodes] =
      Sheet.allDeclarations r.nodes := by
    simp [Sheet.allDeclarations, Sheet.ruleSets, Node.ruleSetsAll, Node.ruleSets]
  simp [settled, close, h, outer, Sheet.allDeclarations_append, hnode]

theorem settled_append (n : Node Declaration) :
    (r.append n).settled = r.settled ++ Sheet.allDeclarations [n] := by
  simp [settled, append, Sheet.allDeclarations_append]

-- What a reader comes to outside of declarations.
structure Outside (r : Reader) (hold : List Position) (p : Position)
    (found : Reader × List Diagnostic) : Prop where
  settled : found.1.settled = r.settled
  inner : found.1.focus.inner = {}
  reports : Reports hold p found.2 found.1.focus.held

theorem outside_look (hb : focus.inner = {}) (hr : Reports hold p faults focus.held) :
    Outside r hold p (r.look focus, faults) :=
  ⟨rfl, hb, hr⟩

theorem outside_same (hi : r.focus.inner = {}) (hh : r.focus.held = [])
    (hr : Reports r.focus.held p faults []) : Outside r r.focus.held p (r, faults) :=
  ⟨rfl, hi, hh.symm ▸ hr⟩

theorem outside_closeBrace : Outside r hold p (r.closeBrace p) := by
  unfold closeBrace
  split
  case h_1 frame frames hf => exact ⟨settled_close hf, rfl, .none⟩
  case h_2 => exact outside_look rfl .here

theorem outside_openBlock {start : Position} (hs : damaged = false → start ∈ hold ∨ start = p) :
    Outside r hold p (r.openBlock start prelude damaged) := by
  unfold openBlock
  split
  case isTrue => exact outside_look rfl .none
  case isFalse hd =>
    split
    case h_1 => exact outside_look rfl .none
    case h_2 =>
      exact outside_look rfl (.faults (hs (by simpa using hd)) (List.forall_mem_singleton.mpr rfl))

theorem outside_openAtRule {name : String} :
    Outside r hold p (r.openAtRule name prelude damaged, []) := by
  unfold openAtRule
  split
  case isTrue => exact outside_look rfl .none
  case isFalse =>
    split
    case isTrue => exact outside_look rfl .none
    case isFalse =>
      refine ⟨?_, rfl, .none⟩
      simp [settled, outer, Sheet.allDeclarations, Sheet.ruleSets, Node.ruleSetsAll]

theorem outside_endStatement {name : String} :
    Outside r hold p (r.endStatement name prelude damaged, []) := by
  unfold endStatement
  split
  case isTrue => exact outside_look rfl .none
  case isFalse =>
    refine ⟨(settled_append _).trans ?_, rfl, .none⟩
    simp [Sheet.allDeclarations, Sheet.ruleSets, Node.ruleSetsAll, Node.ruleSets]

theorem outside_selectorStep {start : Position}
    (hs : damaged = false → start ∈ hold ∨ start = t.position) :
    Outside r hold t.position (r.selectorStep start prelude damaged t) := by
  unfold selectorStep
  dsimp only
  split
  case h_1 => exact outside_openBlock hs
  case h_2 => exact outside_look rfl .here
  case h_3 =>
    obtain ⟨hsettled, hinner, hreports⟩ := @outside_closeBrace hold t.position r
    refine ⟨hsettled, hinner, ?_⟩
    unfold closeBrace
    split
    · exact .here
    · exact .faults (.inr rfl) (by simp [Diagnostic.atToken])
  case h_4 =>
    refine outside_look rfl (.nothing fun x hx => ?_)
    cases damaged
    case true => cases hx
    case false =>
      obtain rfl := List.mem_singleton.mp hx
      exact hs rfl

theorem outside_step (h : ∀ owner b, r.focus ≠ .body owner b) :
    Outside r r.focus.held t.position (r.step t) := by
  unfold step
  split
  case h_1 hf =>
    split
    case h_1 => exact outside_same (by rw [hf]; rfl) (by rw [hf]; rfl) .none
    case h_2 => exact outside_closeBrace
    case h_3 => exact outside_same (by rw [hf]; rfl) (by rw [hf]; rfl) .here
    case h_4 => exact outside_look rfl .none
    case h_5 => exact outside_selectorStep fun _ => .inr rfl
  case h_2 start prelude damaged hf =>
    refine outside_selectorStep fun hd => .inl ?_
    simp [hf, hd, Focus.held]
  case h_3 name prelude damaged hf =>
    split
    case h_1 => exact outside_openAtRule
    case h_2 => exact outside_endStatement
    case h_3 =>
      obtain ⟨hsettled, hinner, hreports⟩ := @outside_closeBrace r.focus.held t.position
        (r.endStatement name prelude damaged)
      have hends := @outside_endStatement r.focus.held t.position r prelude damaged name
      exact ⟨hsettled.trans hends.settled, hinner, hreports⟩
    case h_4 => exact outside_look rfl .none
  case h_4 owner b hf => exact absurd hf (h owner b)
  case h_5 depth hf =>
    split
    case h_1 => exact outside_look rfl .none
    case h_2 => cases depth <;> exact outside_look rfl .none
    case h_3 => exact outside_same (by rw [hf]; rfl) (by rw [hf]; rfl) .none

/-! ### All readers -/

theorem settled_damage : r.damage.settled = r.settled := by
  unfold damage
  split <;> rfl

theorem held_damage : r.damage.focus.held = [] := by
  unfold damage
  split
  case h_3 => exact Body.held_damage
  case h_4 | h_5 => simp only [*]; rfl
  all_goals rfl

theorem reports_step : Reports r.focus.held t.position (r.step t).2 (r.step t).1.focus.held := by
  cases hf : r.focus
  case body owner b =>
    have hb := @Body.reports_step b t
    simp only [step, hf]
    split
    · exact hb.release
    · exact hb
  all_goals
    have := @outside_step r t (by simp [hf])
    exact hf ▸ this.reports

theorem reports_read {result : Lexed} : Reports r.focus.held (Cursor.positionOf result)
    (r.read result).2 (r.read result).1.focus.held := by
  cases result
  case ok t => exact reports_step
  case error d =>
    rw [read, held_damage]
    exact .faults (.inr rfl) (List.forall_mem_singleton.mpr rfl)

theorem allDeclarations_closeAll (finish : Position) (frames : List Frame)
    (nodes : Sheet Declaration) : Sheet.allDeclarations (closeAll finish frames nodes).1 =
      outer frames ++ Sheet.allDeclarations nodes ∧
      ∀ d ∈ (closeAll finish frames nodes).2, d.position = finish := by
  induction frames generalizing nodes
  case nil => exact ⟨rfl, List.forall_mem_nil _⟩
  case cons frame frames ih =>
    obtain ⟨hnodes, hfaults⟩ := ih (frame.before ++ [.atBlock frame.name frame.arguments nodes])
    have hclose := @settled_close ⟨frame :: frames, nodes, .between⟩ frame frames rfl
    exact ⟨hnodes.trans hclose, List.forall_mem_cons.mpr ⟨rfl, hfaults⟩⟩

theorem reports_endOfText : ∃ faults more, (r.endOfText p).2 = faults ++ more ∧
    Reports r.focus.held p faults [] ∧ ∀ d ∈ more, d.position = p := by
  have hclose (r : Reader) := (allDeclarations_closeAll p r.frames r.nodes).2
  cases hf : r.focus
  case between | skippingBlock => exact ⟨[], _, by simp only [endOfText, hf], .none, hclose r⟩
  case selector => exact ⟨_, _, by simp only [endOfText, hf]; rfl, .here, hclose r⟩
  case atPrelude => exact ⟨[], _, by simp only [endOfText, hf]; rfl, .none, hclose _⟩
  case body owner b =>
    obtain ⟨faults, hb, hr⟩ := @Body.reports_endOfText p b
    have hclose := hclose (r.append (owner.node (b.endOfText p).1))
    refine ⟨faults, .atToken .unterminatedBlock p :: _, ?_, hr,
      List.forall_mem_cons.mpr ⟨rfl, hclose⟩⟩
    simp only [endOfText, hf, hb, List.append_assoc]
    rfl

end Reader
end Stylesheet
