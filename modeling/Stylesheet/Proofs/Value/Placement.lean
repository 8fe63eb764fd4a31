import Stylesheet.Proofs.Token.Placement
import Stylesheet.Value.Reader
/-!
Where its tokens stand does not matter to a value, only to the position of a fault in it. Main
statement: `Value.ofTokens_unplaced`.
-/

namespace Stylesheet.Value

open Diagnostic (unplacedResult unplacedResult_bind unplacedResult_map)

/-! ### Nesting -/

namespace Nested

mutual

def unplaced : Nested → Nested
  | leaf t => leaf t.unplaced
  | group opener inner _ => group opener.unplaced (unplacedAll inner) .nowhere

def unplacedAll : List Nested → List Nested
  | [] => []
  | n :: ns => n.unplaced :: unplacedAll ns

end

theorem unplacedAll_eq_map (ns : List Nested) : unplacedAll ns = ns.map unplaced := by
  induction ns
  case nil => rfl
  case cons ih => rw [unplacedAll, ih, List.map_cons]

theorem unplacedAll_append (ns ms : List Nested) :
    unplacedAll (ns ++ ms) = unplacedAll ns ++ unplacedAll ms := by
  simp [unplacedAll_eq_map]

theorem isWhitespace_unplaced (n : Nested) : n.unplaced.isWhitespace = n.isWhitespace := by
  cases n <;> rfl

theorem all_isWhitespace_unplaced (ns : List Nested) :
    (unplacedAll ns).all isWhitespace = ns.all isWhitespace := by
  simp only [unplacedAll_eq_map, List.all_map]
  exact congrArg ns.all (funext isWhitespace_unplaced)

-- An open token with what is in front of it.
def unplacedOpen (o : Placed × List Nested) : Placed × List Nested :=
  (o.1.unplaced, unplacedAll o.2)

theorem ofRun_unplaced (stack : List (Placed × List Nested)) (done : List Nested)
    (ts : List Placed) : ofRun (stack.map unplacedOpen) (unplacedAll done) (ts.map Placed.unplaced) =
      unplacedAll (ofRun stack done ts) := by
  fun_induction ofRun stack done ts
  case case1 stack done opener before hl =>
    simp [ofRun, hl, unplacedOpen, unplacedAll_append, unplacedAll, unplaced]
  case case2 stack done hl => simp [ofRun, hl]
  case case3 t ts ht ih =>
    have ht' : t.unplaced.token.opensParen := ht
    rw [List.map_cons, ofRun, if_pos ht']
    · exact ih
    · rintro _ _ _ hc -
      rw [show t.token = .closeParen from hc] at ht
      cases ht
  case case4 done t ts ht opener before stack hc ih =>
    obtain ⟨token, position⟩ := t
    obtain rfl : token = .closeParen := hc
    rw [← ih]
    simp [ofRun, unplacedOpen, Placed.unplaced, Token.opensParen, unplacedAll_append, unplacedAll,
      unplaced]
  case case5 done t ts ht stack hn ih =>
    have ht' : ¬t.unplaced.token.opensParen := ht
    rw [List.map_cons, ofRun, if_neg ht', ← ih, unplacedAll_append]
    · rfl
    · intro _ _ _ hc hs
      obtain ⟨o, os, rfl, -, -⟩ := List.map_eq_cons_iff.mp hs
      exact hn o.1 o.2 os hc rfl

end Nested

/-! ### Items -/

def Part.unplaced : Part → Part
  | value v => value v
  | slash _ => slash .nowhere

def Item.unplaced : Item → Item
  | part p => part p.unplaced
  | comma _ => comma .nowhere

theorem leafItem_unplaced (t : Placed) :
    leafItem t.unplaced = unplacedResult (Option.map Item.unplaced) (leafItem t) := by
  obtain ⟨token, position⟩ := t
  cases token <;> rfl

theorem splitAtCommas_unplaced (last : Position) (part : List Part) (items : List Item) :
    splitAtCommas .nowhere (part.map Part.unplaced) (items.map Item.unplaced) =
      unplacedResult (List.map (List.map Part.unplaced)) (splitAtCommas last part items) := by
  induction items generalizing last part
  case nil => cases part <;> rfl
  case cons item items ih =>
    cases item
    case part p => simpa [splitAtCommas, Item.unplaced] using ih last (part ++ [p])
    case comma p =>
      have hrest : unplacedResult (List.map (List.map Part.unplaced)) (splitAtCommas p [] items) =
          splitAtCommas .nowhere [] (items.map Item.unplaced) := (ih p []).symm
      cases part
      case nil => rfl
      case cons q part =>
        simp only [splitAtCommas, Item.unplaced, List.map_cons, ← hrest, List.isEmpty_cons,
          Bool.false_eq_true, if_false]
        exact unplacedResult_map (fun _ => by rfl) _

theorem words_unplaced (current : Option Value) (part : List Part) :
    words current (part.map Part.unplaced) = unplacedResult id (words current part) := by
  fun_induction words current part
  case case1 => rfl
  case case2 ih =>
    simp only [List.map_cons, Part.unplaced, words, ih]
    exact unplacedResult_map (fun _ => by rfl) _
  case case3 => rfl
  case case4 ih => simpa [words, Part.unplaced] using ih
  case case5 => rfl
  case case6 => rfl

theorem mapM_words_unplaced (parts : List (List Part)) :
    ((parts.map (List.map Part.unplaced)).mapM fun part =>
        (return spaceList (← words none part) : Except Diagnostic Value)) =
      unplacedResult id (parts.mapM fun part => return spaceList (← words none part)) := by
  induction parts
  case nil => rfl
  case cons part parts ih =>
    rw [List.map_cons, List.mapM_cons, List.mapM_cons, ih, words_unplaced]
    cases words none part
    case error => rfl
    case ok => exact unplacedResult_bind (fun _ => by rfl) _

theorem ofItems_unplaced (items : List Item) (finish : Position) :
    ofItems (items.map Item.unplaced) .nowhere = unplacedResult id (ofItems items finish) := by
  have hsplit := splitAtCommas_unplaced finish [] items
  rw [List.map_nil] at hsplit
  rw [ofItems, hsplit]
  refine unplacedResult_bind (fun parts => ?_) _
  rw [mapM_words_unplaced]
  exact unplacedResult_bind (fun _ => by rfl) _

/-! ### Values -/

mutual

theorem nestedItem_unplaced (n : Nested) :
    nestedItem n.unplaced = unplacedResult (Option.map Item.unplaced) (nestedItem n) := by
  cases n
  case leaf t => exact leafItem_unplaced t
  case group opener inner closer =>
    rw [Nested.unplaced, nestedItem, nestedItem, nestedItems_unplaced inner,
      Nested.all_isWhitespace_unplaced]
    refine unplacedResult_bind (fun items => ?_) _
    split
    case isTrue => rfl
    case isFalse =>
      rw [ofItems_unplaced items closer]
      cases ofItems items closer <;> rfl

theorem nestedItems_unplaced (ns : List Nested) :
    nestedItems (Nested.unplacedAll ns) =
      unplacedResult (List.map Item.unplaced) (nestedItems ns) := by
  cases ns
  case nil => rfl
  case cons n ns =>
    rw [Nested.unplacedAll, nestedItems, nestedItems, nestedItem_unplaced n, nestedItems_unplaced ns]
    refine unplacedResult_bind (fun item => ?_) _
    refine unplacedResult_bind (fun items => ?_) _
    cases item <;> rfl

end

theorem ofTokens_unplaced (tokens : List Placed) (finish : Position) :
    ofTokens (tokens.map Placed.unplaced) .nowhere =
      unplacedResult id (ofTokens tokens finish) := by
  rw [ofTokens, ofTokens, List.isEmpty_map]
  split
  case isTrue => rfl
  case isFalse =>
    have hrun : Nested.ofRun [] [] (tokens.map Placed.unplaced) = _ := Nested.ofRun_unplaced [] [] tokens
    rw [hrun, nestedItems_unplaced]
    exact unplacedResult_bind (fun items => ofItems_unplaced items finish) _

end Stylesheet.Value
