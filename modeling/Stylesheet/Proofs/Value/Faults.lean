import Stylesheet.Proofs.Value.Placement
import Stylesheet.Proofs.Value.Shape
/-!
Where the faults of a value are: at one of its tokens, or where its run ends. Main statement:
`Value.position_of_ofTokens_error`.
-/

namespace Stylesheet.Value

variable {P : Position → Prop} {α β : Type} {Q : α → Prop} {R : β → Prop}

-- What comes out is as `Q` says, or else a fault at a place as `P` says.
def Yields (P : Position → Prop) (Q : α → Prop) : Except Diagnostic α → Prop
  | .ok a => Q a
  | .error e => P e.position

namespace Yields

variable {result : Except Diagnostic α}

theorem bind {f : α → Except Diagnostic β} (h : Yields P Q result)
    (hf : ∀ a, Q a → Yields P R (f a)) : Yields P R (result.bind f) := by
  cases result
  case error => exact h
  case ok a => exact hf a h

theorem map {f : α → β} (h : Yields P Q result) (hf : ∀ a, Q a → R (f a)) :
    Yields P R (result.map f) := by
  cases result
  case error => exact h
  case ok a => exact hf a h

end Yields

/-! ### Items -/

def Part.IsAt (P : Position → Prop) : Part → Prop
  | value _ => True
  | slash p => P p

def Item.IsAt (P : Position → Prop) : Item → Prop
  | part p => p.IsAt P
  | comma p => P p

theorem yields_leafItem {t : Placed} (h : P t.position) :
    Yields P (fun item => ∀ i ∈ item.toList, i.IsAt P) (leafItem t) := by
  obtain ⟨token, p⟩ := t
  cases token
  case function | openParen | atKeyword | semicolon | openBrace | closeBrace | closeParen => exact h
  case whitespace => exact List.forall_mem_nil _
  case comma | slash => exact List.forall_mem_singleton.mpr h
  all_goals exact List.forall_mem_singleton.mpr trivial

theorem yields_splitAtCommas {last : Position} {part : List Part} {items : List Item}
    (hl : P last) (hp : ∀ p ∈ part, p.IsAt P) (hi : ∀ i ∈ items, i.IsAt P) :
    Yields P (fun parts => ∀ ps ∈ parts, ∀ p ∈ ps, p.IsAt P) (splitAtCommas last part items) := by
  fun_induction splitAtCommas last part items
  case case1 => exact hl
  case case2 => exact List.forall_mem_singleton.mpr hp
  case case3 => exact hi _ List.mem_cons_self
  case case4 ih =>
    obtain ⟨hq, hr⟩ := List.forall_mem_cons.mp hi
    exact (ih hq (List.forall_mem_nil _) hr).map fun more hm => List.forall_mem_cons.mpr ⟨hp, hm⟩
  case case5 ih =>
    obtain ⟨hq, hr⟩ := List.forall_mem_cons.mp hi
    exact ih hl (List.forall_mem_append.mpr ⟨hp, List.forall_mem_singleton.mpr hq⟩) hr

theorem yields_words {current : Option Value} {parts : List Part}
    (hp : ∀ p ∈ parts, p.IsAt P) : Yields P (fun _ => True) (words current parts) := by
  fun_induction words current parts
  case case1 => trivial
  case case2 ih => exact (ih (List.forall_mem_cons.mp hp).2).map fun _ _ => trivial
  case case3 => exact hp _ List.mem_cons_self
  case case4 ih => exact ih (List.forall_mem_cons.mp (List.forall_mem_cons.mp hp).2).2
  case case5 => exact hp _ (List.mem_cons_of_mem _ List.mem_cons_self)
  case case6 => exact hp _ List.mem_cons_self

theorem yields_groups {parts : List (List Part)} (hp : ∀ ps ∈ parts, ∀ p ∈ ps, p.IsAt P) :
    Yields P (fun _ => True) (parts.mapM group) := by
  induction parts
  case nil => trivial
  case cons part parts ih =>
    obtain ⟨hpart, hparts⟩ := List.forall_mem_cons.mp hp
    have hgroup : Yields P (fun _ => True) (group part) :=
      (yields_words hpart).map fun _ _ => trivial
    rw [List.mapM_cons]
    exact hgroup.bind fun _ _ => (ih hparts).bind fun _ _ => trivial

theorem yields_ofItems {items : List Item} {finish : Position} (hf : P finish)
    (hi : ∀ i ∈ items, i.IsAt P) : Yields P (fun _ => True) (ofItems items finish) := by
  rw [ofItems_eq]
  exact (yields_splitAtCommas hf (List.forall_mem_nil _) hi).bind fun parts hp =>
    (yields_groups hp).map fun _ _ => trivial

/-! ### Nesting -/

mutual

def Nested.IsAt (P : Position → Prop) : Nested → Prop
  | leaf t => P t.position
  | group _ inner closer => AreAt P inner ∧ P closer

def Nested.AreAt (P : Position → Prop) : List Nested → Prop
  | [] => True
  | n :: ns => n.IsAt P ∧ AreAt P ns

end

theorem Nested.AreAt.append {ns ms : List Nested} (h : AreAt P ns) (h' : AreAt P ms) :
    AreAt P (ns ++ ms) := by
  induction ns
  case nil => exact h'
  case cons ih => exact ⟨h.1, ih h.2⟩

theorem Nested.areAt_ofRun {stack : List (Placed × List Nested)} {done : List Nested}
    {ts : List Placed} (hs : ∀ o ∈ stack, P o.1.position ∧ AreAt P o.2) (hd : AreAt P done)
    (ht : ∀ t ∈ ts, P t.position) : AreAt P (ofRun stack done ts) := by
  fun_induction ofRun stack done ts
  case case1 hl =>
    obtain ⟨hopener, hbefore⟩ := hs _ (List.mem_of_getLast? hl)
    exact hbefore.append ⟨hopener, trivial⟩
  case case2 => exact hd
  case case3 ih =>
    obtain ⟨ht, hts⟩ := List.forall_mem_cons.mp ht
    exact ih (List.forall_mem_cons.mpr ⟨⟨ht, hd⟩, hs⟩) trivial hts
  case case4 ih =>
    obtain ⟨ht, hts⟩ := List.forall_mem_cons.mp ht
    obtain ⟨⟨_, hbefore⟩, hs⟩ := List.forall_mem_cons.mp hs
    exact ih hs (hbefore.append ⟨⟨hd, ht⟩, trivial⟩) hts
  case case5 ih =>
    obtain ⟨ht, hts⟩ := List.forall_mem_cons.mp ht
    exact ih hs (hd.append ⟨ht, trivial⟩) hts

mutual

theorem yields_nestedItem {n : Nested} (hn : n.IsAt P) :
    Yields P (fun item => ∀ i ∈ item.toList, i.IsAt P) (nestedItem n) := by
  match n with
  | .leaf t => exact yields_leafItem hn
  | .group opener inner closer =>
    obtain ⟨hinner, hcloser⟩ := hn
    rw [nestedItem]
    refine (yields_nestedItems hinner).bind fun items hi => ?_
    split
    case isTrue => exact List.forall_mem_singleton.mpr trivial
    case isFalse =>
      have harguments : Yields P (fun _ => True) (some <$> ofItems items closer) :=
        (yields_ofItems hcloser hi).map fun _ _ => trivial
      exact harguments.bind fun _ _ => List.forall_mem_singleton.mpr trivial

theorem yields_nestedItems {ns : List Nested} (hn : Nested.AreAt P ns) :
    Yields P (fun items => ∀ i ∈ items, i.IsAt P) (nestedItems ns) := by
  match ns with
  | [] => exact List.forall_mem_nil _
  | n :: ns =>
    rw [nestedItems]
    exact (yields_nestedItem hn.1).bind fun item hi => (yields_nestedItems hn.2).bind
      fun items his => List.forall_mem_append.mpr ⟨hi, his⟩

end

theorem position_of_ofTokens_error {ts : List Placed} {finish : Position} {e : Diagnostic}
    (h : ofTokens ts finish = .error e) :
    e.position = finish ∨ ∃ t ∈ ts, e.position = t.position := by
  let P (p : Position) : Prop := p = finish ∨ ∃ t ∈ ts, p = t.position
  have hrun : Nested.AreAt P (Nested.ofRun [] [] ts) :=
    Nested.areAt_ofRun (List.forall_mem_nil _) trivial fun t ht => .inr ⟨t, ht, rfl⟩
  have hvalue : Yields P (fun _ => True) (ofTokens ts finish) := by
    rw [ofTokens]
    split
    case isTrue => exact .inl rfl
    case isFalse => exact (yields_nestedItems hrun).bind fun _ hi => yields_ofItems (.inl rfl) hi
  rwa [h] at hvalue

end Stylesheet.Value
