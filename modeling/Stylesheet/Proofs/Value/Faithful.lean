import Stylesheet.Proofs.Value.Faults
import Stylesheet.Proofs.Value.Spelling
/-!
What a value says of its tokens. A value is read from a run of tokens exactly if it has the shape of
one and its tokens are the run, white space apart: those of its parts, with commas between the items
of a list that has them, slashes in pairs, and parentheses around arguments. So nothing is lost, and
nothing added. Main statements: `Value.ofTokens_eq_ok_iff`, `Value.ofTokens_faithful`.
-/

namespace Stylesheet

namespace Token

theorem isWhitespace_eq_false_iff {t : Token} : t.isWhitespace = false ↔ t ≠ .whitespace := by
  cases t <;> simp [isWhitespace]

theorem isWhitespace_of_opensParen {t : Token} (h : t.opensParen) : t.isWhitespace = false := by
  cases t <;> first | rfl | cases h

-- The tokens that are not white space.
def visible (ts : List Placed) : List Token :=
  (ts.map Placed.token).filter (!·.isWhitespace)

theorem visible_append (ts us : List Placed) : visible (ts ++ us) = visible ts ++ visible us := by
  simp [visible]

theorem visible_eq_nil_iff {ts : List Placed} :
    visible ts = [] ↔ ∀ t ∈ ts, t.token = .whitespace := by
  have hw (t : Token) : t.isWhitespace ↔ t = .whitespace := by cases t <;> simp [isWhitespace]
  simp [visible, List.filter_eq_nil_iff, hw]

-- Where the visible tokens can be divided, so can the run.
theorem exists_of_visible_eq_append {ts : List Placed} {us vs : List Token}
    (h : visible ts = us ++ vs) :
    ∃ front back, ts = front ++ back ∧ visible front = us ∧ visible back = vs := by
  rw [visible, List.filter_eq_append_iff] at h
  obtain ⟨front, back, hm, hf, hb⟩ := h
  obtain ⟨front', back', rfl, rfl, rfl⟩ := List.map_eq_append_iff.mp hm
  exact ⟨front', back', rfl, hf, hb⟩

theorem exists_of_visible_eq_cons {ts : List Placed} {u : Token} {us : List Token}
    (h : visible ts = u :: us) : ∃ blanks t back, ts = blanks ++ t :: back ∧
      (∀ t ∈ blanks, t.token = .whitespace) ∧ t.token = u ∧ visible back = us := by
  induction ts
  case nil => cases h
  case cons t ts ih =>
    by_cases hw : t.token = .whitespace
    case pos =>
      have hts : visible ts = u :: us := by simpa [visible, hw, isWhitespace] using h
      obtain ⟨blanks, t', back, rfl, hb, ht, hv⟩ := ih hts
      exact ⟨t :: blanks, t', back, rfl, List.forall_mem_cons.mpr ⟨hw, hb⟩, ht, hv⟩
    case neg =>
      have hs := isWhitespace_eq_false_iff.mpr hw
      have hts : t.token :: visible ts = u :: us := by simpa [visible, hs] using h
      obtain ⟨ht, hv⟩ := List.cons.inj hts
      exact ⟨[], t, ts, rfl, by simp, ht, hv⟩

end Token

namespace Value

open Token (visible)

variable {v w : Value} {vs : List Value} {t : Token} {ts us : List Token}

/-! ### The tokens of a value -/

-- The tokens that are values by themselves.
inductive IsLeafOf : Token → Value → Prop
  | number (x : Double) (unit : Option String) (written : String) :
    IsLeafOf (.number x unit written) (size (.ofParts (.finite x) unit))
  | identifier (word : String) : IsLeafOf (.identifier word) (keyword word)
  | hash (name : String) : IsLeafOf (.hash name) (ofHash name)
  | string (content : String) : IsLeafOf (.string content) (string content)
  | url (target : String) : IsLeafOf (.url target) (url target)
  | colon : IsLeafOf .colon (keyword ":")
  | delimiter (c : Char) : IsLeafOf (.delimiter c) (keyword c.toString)

-- What opens the arguments of a function. Parentheses are one without a name.
inductive Opens : Token → String → Prop
  | function (name : String) : Opens (.function name) name
  | paren : Opens .openParen ""

mutual

-- Whether a value is written as a row of tokens.
def Writes : Value → List Token → Prop
  | function _ name arguments, ts => ∃ opener inner, Opens opener name ∧
      WritesArguments arguments inner ∧ ts = opener :: (inner ++ [.closeParen])
  | pair first second, ts => ∃ front back, first.Writes front ∧ second.Writes back ∧
      ts = front ++ .slash :: back
  | list .space items, ts => ∃ pieces, WritesItems items pieces ∧ ts = pieces.flatten
  | list .comma items, ts => ∃ pieces, WritesItems items pieces ∧
      ts = [.comma].intercalate pieces
  | v, ts => ∃ t, IsLeafOf t v ∧ ts = [t]

def WritesArguments : Option Value → List Token → Prop
  | some v, ts => v.Writes ts
  | none, ts => ts = []

def WritesItems : List Value → List (List Token) → Prop
  | v :: vs, ts :: pieces => v.Writes ts ∧ WritesItems vs pieces
  | [], [] => True
  | _, _ => False

end

theorem ofHash_eq (name : String) :
    (∃ digits, ofHash name = hex digits) ∨ ∃ word, ofHash name = keyword word := by
  simp only [ofHash, hex?]
  split
  case isTrue => exact .inl ⟨_, rfl⟩
  case isFalse => exact .inr ⟨_, rfl⟩

theorem writes_leaf (h : IsLeafOf t v) : v.Writes [t] := by
  have hw : (∃ t', IsLeafOf t' v ∧ [t] = [t']) → v.Writes [t] := by
    cases h
    case hash name => rcases ofHash_eq name with ⟨_, he⟩ | ⟨_, he⟩ <;> simp [he, Writes]
    all_goals simp [Writes]
  exact hw ⟨t, h, rfl⟩

theorem writes_call {opener : Token} {arguments : Option Value} (ho : opener.opensParen)
    (h : WritesArguments arguments ts) :
    (call opener arguments).Writes (opener :: (ts ++ [.closeParen])) := by
  cases opener
  case function name => exact ⟨_, ts, .function name, h, rfl⟩
  case openParen => exact ⟨_, ts, .paren, h, rfl⟩
  all_goals simp [Token.opensParen] at ho

-- One item alone is the list.
theorem writes_spaceList {pieces : List (List Token)} (h : WritesItems vs pieces) :
    (spaceList vs).Writes pieces.flatten := by
  unfold spaceList join
  split
  case h_1 v =>
    match pieces, h with
    | [piece], h => simpa using h.1
  case h_2 => exact ⟨pieces, h, rfl⟩

theorem writes_commaList {pieces : List (List Token)} (h : WritesItems vs pieces) :
    (commaList vs).Writes ([.comma].intercalate pieces) := by
  unfold commaList join
  split
  case h_1 v =>
    match pieces, h with
    | [piece], h => simpa [List.intercalate] using h.1
  case h_2 => exact ⟨pieces, h, rfl⟩

/-! ### Reading -/

-- What items are read from.
inductive ItemsOf : List Item → List Token → Prop
  | nil : ItemsOf [] []
  | value {v : Value} {is : List Item} {ts us : List Token} (h : v.Writes ts)
    (hr : ItemsOf is us) : ItemsOf (.part (.value v) :: is) (ts ++ us)
  | slash {p : Position} {is : List Item} {us : List Token} (hr : ItemsOf is us) :
    ItemsOf (.part (.slash p) :: is) (.slash :: us)
  | comma {p : Position} {is : List Item} {us : List Token} (hr : ItemsOf is us) :
    ItemsOf (.comma p :: is) (.comma :: us)

theorem ItemsOf.append {is js : List Item} (h : ItemsOf is ts) (h' : ItemsOf js us) :
    ItemsOf (is ++ js) (ts ++ us) := by
  induction h
  case nil => exact h'
  case value hv _ ih => exact List.append_assoc .. ▸ .value hv ih
  case slash ih => exact .slash ih
  case comma ih => exact .comma ih

theorem ItemsOf.exists_append {is js : List Item} (h : ItemsOf (is ++ js) ts) :
    ∃ front back, ts = front ++ back ∧ ItemsOf is front ∧ ItemsOf js back := by
  induction is generalizing ts
  case nil => exact ⟨[], ts, rfl, .nil, h⟩
  case cons i is ih =>
    cases h
    case value hv hr =>
      obtain ⟨front, back, rfl, hf, hb⟩ := ih hr
      exact ⟨_, back, (List.append_assoc ..).symm, .value hv hf, hb⟩
    case slash hr =>
      obtain ⟨front, back, rfl, hf, hb⟩ := ih hr
      exact ⟨_, back, rfl, .slash hf, hb⟩
    case comma hr =>
      obtain ⟨front, back, rfl, hf, hb⟩ := ih hr
      exact ⟨_, back, rfl, .comma hf, hb⟩

def PartsOf (parts : List Part) (ts : List Token) : Prop :=
  ItemsOf (parts.map .part) ts

theorem splitAtCommas_ne_nil {last : Position} {part : List Part} {items : List Item} :
    splitAtCommas last part items ≠ .ok [] := by
  fun_induction splitAtCommas last part items
  case case4 p rest _ _ =>
    cases splitAtCommas p [] rest <;> simp [Except.map]
  case case5 ih => exact ih
  all_goals simp

-- Items are divided at their commas.
theorem partsOf_splitAtCommas {last : Position} {part : List Part} {items : List Item}
    {parts : List (List Part)} (h : splitAtCommas last part items = .ok parts)
    (hi : ItemsOf (part.map .part ++ items) ts) :
    ∃ pieces, List.Forall₂ PartsOf parts pieces ∧ ts = [.comma].intercalate pieces := by
  fun_induction splitAtCommas last part items generalizing parts ts
  case case1 => cases h
  case case2 part _ =>
    cases h
    rw [List.append_nil] at hi
    exact ⟨[ts], .cons hi .nil, by simp [List.intercalate]⟩
  case case3 => cases h
  case case4 p rest _ ih =>
    cases hs : splitAtCommas p [] rest
    case error => simp [hs, Except.map] at h
    case ok more =>
      simp only [hs, Except.map, Except.ok.injEq] at h
      subst h
      obtain ⟨front, back, rfl, hf, hb⟩ := hi.exists_append
      cases hb
      case comma us hr =>
        obtain ⟨pieces, hp, rfl⟩ := ih hs hr
        refine ⟨front :: pieces, .cons hf hp, ?_⟩
        cases hp
        case nil => exact absurd hs splitAtCommas_ne_nil
        case cons => simp [List.intercalate]
  case case5 ih =>
    refine ih h ?_
    rwa [List.map_append, List.append_assoc]

-- Parts are joined to words at their slashes.
theorem writesItems_words {current : Option Value} {parts : List Part} {front : List Token}
    (h : words current parts = .ok vs) (hc : WritesArguments current front)
    (hp : PartsOf parts ts) : ∃ pieces, WritesItems vs pieces ∧ front ++ ts = pieces.flatten := by
  fun_induction words current parts generalizing vs front ts
  case case1 current =>
    cases h
    cases hp
    cases current
    case none => exact ⟨[], trivial, by simpa [WritesArguments] using hc⟩
    case some v => exact ⟨[front], ⟨hc, trivial⟩, by simp⟩
  case case2 current v rest ih =>
    cases hw : words (some v) rest
    case error => simp [hw, Except.map] at h
    case ok ws =>
      simp only [hw, Except.map, Except.ok.injEq] at h
      subst h
      cases hp
      case value hv hr =>
        obtain ⟨pieces, hpieces, he⟩ := ih hw hv hr
        cases current
        case none =>
          refine ⟨pieces, hpieces, ?_⟩
          rw [← he, show front = [] from hc, List.nil_append]
        case some => exact ⟨front :: pieces, ⟨hc, hpieces⟩, by simp [he]⟩
  case case4 w p v rest ih =>
    cases hp
    case slash hr =>
      cases hr
      case value us us' hv hr =>
        have hpair : (pair w v).Writes (front ++ .slash :: us) := ⟨front, us, hc, hv, rfl⟩
        obtain ⟨pieces, hpieces, he⟩ := ih h hpair hr
        exact ⟨pieces, hpieces, by rw [← he]; simp⟩
  all_goals cases h

theorem writes_group {part : List Part} (h : group part = .ok v) (hp : PartsOf part ts) :
    v.Writes ts := by
  cases hw : words none part
  case error => simp [group, hw, Except.map] at h
  case ok ws =>
    simp only [group, hw, Except.map, Except.ok.injEq] at h
    obtain ⟨pieces, hpieces, he⟩ := writesItems_words hw rfl hp
    rw [← h, show ts = pieces.flatten from he]
    exact writes_spaceList hpieces

theorem writesItems_groups {parts : List (List Part)} {pieces : List (List Token)}
    (h : parts.mapM group = .ok vs) (hp : List.Forall₂ PartsOf parts pieces) :
    WritesItems vs pieces := by
  induction hp generalizing vs
  case nil => cases h; trivial
  case cons part piece parts pieces hpart _ ih =>
    rw [List.mapM_cons] at h
    cases hg : group part
    case error => simp [hg, bind, Except.bind] at h
    case ok g =>
      cases hm : parts.mapM group
      case error => simp [hg, hm, bind, Except.bind] at h
      case ok gs =>
        simp only [hg, hm, bind, Except.bind, pure, Except.pure, Except.ok.injEq] at h
        exact h ▸ ⟨writes_group hg hpart, ih hm⟩

theorem writes_ofItems {items : List Item} {finish : Position} (h : ofItems items finish = .ok v)
    (hi : ItemsOf items ts) : v.Writes ts := by
  rw [ofItems_eq] at h
  cases hs : splitAtCommas finish [] items
  case error => simp [hs, Except.bind] at h
  case ok parts =>
    cases hm : parts.mapM group
    case error => simp [hs, hm, Except.bind, Except.map] at h
    case ok groups =>
      simp only [hs, hm, Except.bind, Except.map, Except.ok.injEq] at h
      obtain ⟨pieces, hp, rfl⟩ := partsOf_splitAtCommas hs hi
      exact h ▸ writes_commaList (writesItems_groups hm hp)

-- A run nested by its parentheses, none of which are left open.
inductive Nests : List Nested → List Token → Prop
  | nil : Nests [] []
  | leaf {t : Placed} {ns : List Nested} {ts : List Token} (ho : t.token.opensParen = false)
    (h : Nests ns ts) : Nests (.leaf t :: ns) (t.token :: ts)
  | group {opener : Placed} {inner ns : List Nested} {us ts : List Token} (closer : Position)
    (ho : opener.token.opensParen) (hi : Nests inner us) (h : Nests ns ts) :
    Nests (.group opener inner closer :: ns) (opener.token :: (us ++ .closeParen :: ts))

theorem Nests.append {ns ms : List Nested} {ts us : List Token} (h : Nests ns ts)
    (h' : Nests ms us) : Nests (ns ++ ms) (ts ++ us) := by
  induction h
  case nil => exact h'
  case leaf ho _ ih => exact .leaf ho ih
  case group closer ho hi _ _ ih => simpa using Nests.group closer ho hi ih

-- The tokens of the stack: those in front of each opening token, and that token.
inductive Stacks : List (Placed × List Nested) → List Token → Prop
  | nil : Stacks [] []
  | open {opener : Placed} {before : List Nested} {stack : List (Placed × List Nested)}
    {ts us : List Token} (ho : opener.token.opensParen) (hb : Nests before us)
    (h : Stacks stack ts) : Stacks ((opener, before) :: stack) (ts ++ (us ++ [opener.token]))

theorem Stacks.opensParen_of_mem {stack : List (Placed × List Nested)} {ts : List Token}
    (h : Stacks stack ts) : ∀ e ∈ stack, e.1.token.opensParen := by
  induction h
  case nil => simp
  case «open» ho _ _ ih => exact List.forall_mem_cons.mpr ⟨ho, ih⟩

theorem leafItem_of_opensParen {opener : Placed} (ho : opener.token.opensParen)
    {item : Option Item} : leafItem opener ≠ .ok item := by
  obtain ⟨token, p⟩ := opener
  cases token <;> simp_all [Token.opensParen, leafItem]

-- A run that is read has no parenthesis left open: nothing could be read from that.
theorem nests_ofRun {stack : List (Placed × List Nested)} {done : List Nested} {ts : List Placed}
    {front behind : List Token} {items : List Item} (hs : Stacks stack front)
    (hd : Nests done behind) (h : nestedItems (Nested.ofRun stack done ts) = .ok items) :
    Nests (Nested.ofRun stack done ts) (front ++ (behind ++ ts.map Placed.token)) := by
  fun_induction Nested.ofRun stack done ts generalizing front behind
  case case1 stack done opener before hl =>
    have ho := hs.opensParen_of_mem _ (List.mem_of_getLast? hl)
    cases hi : leafItem opener
    case ok => exact absurd hi (leafItem_of_opensParen ho)
    case error =>
      rw [nestedItems_append] at h
      cases hn : nestedItems before <;>
        simp [hn, hi, nestedItems, nestedItem, bind, Except.bind, Except.map] at h
  case case2 stack done hl =>
    rw [List.getLast?_eq_none_iff] at hl
    subst hl
    cases hs
    simpa using hd
  case case3 stack done t ts ho ih =>
    simpa using ih (.open ho hd hs) .nil h
  case case4 done t ts _ opener before stack ht ih =>
    cases hs
    case «open» ho hb hs =>
      have hg := hb.append (.group t.position ho hd .nil)
      simpa [ht] using ih hs hg h
  case case5 done t ts ho stack _ ih =>
    have hl := hd.append (.leaf (Bool.eq_false_iff.mpr ho) .nil)
    simpa using ih hs hl h

theorem itemsOf_leafItem {t : Placed} {item : Option Item} (h : leafItem t = .ok item) :
    ItemsOf item.toList (visible [t]) := by
  have hv {v : Value} (hl : IsLeafOf t.token v) : ItemsOf [.part (.value v)] [t.token] :=
    .value (writes_leaf hl) .nil
  obtain ⟨token, p⟩ := t
  cases token <;> cases h
  case identifier word => exact hv (.identifier word)
  case hash name => exact hv (.hash name)
  case number x unit written => exact hv (.number x unit written)
  case string content => exact hv (.string content)
  case url target => exact hv (.url target)
  case whitespace => exact .nil
  case colon => exact hv .colon
  case comma => exact .comma .nil
  case slash => exact .slash .nil
  case delimiter c => exact hv (.delimiter c)

-- Parentheses around white space alone have no arguments.
theorem Nests.filter_eq_nil {ns : List Nested} {ts : List Token} (h : Nests ns ts)
    (hb : ns.all Nested.isWhitespace) : ts.filter (!·.isWhitespace) = [] := by
  induction h
  case nil => rfl
  case leaf ih =>
    simp only [List.all_cons, Nested.isWhitespace, Bool.and_eq_true] at hb
    simp [hb.1, ih hb.2]
  case group => simp [Nested.isWhitespace] at hb

theorem itemsOf_nestedItems {ns : List Nested} {ts : List Token} {items : List Item}
    (hn : Nests ns ts) (h : nestedItems ns = .ok items) :
    ItemsOf items (ts.filter (!·.isWhitespace)) := by
  induction hn generalizing items
  case nil =>
    cases h
    exact .nil
  case leaf ih =>
    obtain ⟨item, rest, hl, hr, rfl⟩ := nestedItems_cons_eq_ok_iff.mp h
    have := (itemsOf_leafItem hl).append (ih hr)
    rwa [visible, List.map_singleton, ← List.filter_append] at this
  case group opener inner _ us _ _ ho hi _ ihi ih =>
    obtain ⟨_, rest, hl, hr, rfl⟩ := nestedItems_cons_eq_ok_iff.mp h
    obtain ⟨is, arguments, his, hv, rfl⟩ := nestedItem_group_eq_ok_iff.mp hl
    have ha : WritesArguments arguments (us.filter (!·.isWhitespace)) := by
      split at hv
      case isTrue hb =>
        subst hv
        exact hi.filter_eq_nil hb
      case isFalse =>
        obtain ⟨v, rfl, hv⟩ := hv
        exact writes_ofItems hv (ihi his)
    have hcall := ItemsOf.value (writes_call ho ha) (ih hr)
    have hcw : Token.closeParen.isWhitespace = false := rfl
    simpa [Token.isWhitespace_of_opensParen ho, hcw] using hcall

theorem writes_of_ofTokens {finish : Position} {ts : List Placed} (h : ofTokens ts finish = .ok v) :
    v.Writes (visible ts) := by
  obtain ⟨items, hi, hv⟩ := ofTokens_eq_ok_iff_ofItems.mp h
  exact writes_ofItems hv (itemsOf_nestedItems (nests_ofRun .nil .nil hi) hi)

/-! ### Spelling -/

theorem leafItem_of_isLeafOf {t : Placed} (h : IsLeafOf t.token v) :
    leafItem t = .ok (some (.part (.value v))) := by
  obtain ⟨token, p⟩ := t
  cases h <;> rfl

-- White space around what spells items changes nothing.
theorem Spells.around {front ts back : List Placed} {is : List Item} (h : Spells ts is)
    (hf : ∀ t ∈ front, t.token = .whitespace) (hb : ∀ t ∈ back, t.token = .whitespace) :
    Spells (front ++ (ts ++ back)) is := by
  simpa using (Spells.blanks hf).append (h.append (Spells.blanks hb))

theorem spells_of_isLeafOf {u : Token} {ts : List Placed} (hl : IsLeafOf u v)
    (h : visible ts = [u]) : Spells ts [.part (.value v)] := by
  obtain ⟨front, t, back, rfl, hf, rfl, hb⟩ := Token.exists_of_visible_eq_cons h
  exact (Spells.leaf (leafItem_of_isLeafOf hl)).around hf (Token.visible_eq_nil_iff.mp hb)

theorem call_of_opens {opener : Token} {name : String} (h : Opens opener name)
    (arguments : Option Value) : call opener arguments = function (kindOf name) name arguments := by
  cases h <;> rfl

-- An opening token, arguments and a closing parenthesis, each with white space around it.
theorem spells_of_call {opener : Token} {name : String} {arguments : Option Value}
    {inner : List Token} {ts : List Placed} (ho : Opens opener name)
    (h : visible ts = opener :: (inner ++ [.closeParen]))
    (ha : ∀ us, visible us = inner → match arguments with
      | some v => SpellsAs .whole us v
      | none => ∀ u ∈ us, u.token = .whitespace) :
    Spells ts [.part (.value (function (kindOf name) name arguments))] := by
  obtain ⟨front, t, rest, rfl, hf, ht, hr⟩ := Token.exists_of_visible_eq_cons h
  obtain ⟨us, closing, rfl, hu, hc⟩ := Token.exists_of_visible_eq_append hr
  obtain ⟨blanks, closer, back, rfl, hblank, hcloser, hb⟩ := Token.exists_of_visible_eq_cons hc
  have hopens : t.token.opensParen := by
    rw [ht]
    cases ho <;> rfl
  have hus : visible (us ++ blanks) = inner := by
    rw [Token.visible_append, hu, Token.visible_eq_nil_iff.mpr hblank, List.append_nil]
  have ha := ha _ hus
  have hcall : Spells (t :: ((us ++ blanks) ++ [closer]))
      [.part (.value (call t.token arguments))] := by
    cases arguments
    case none => exact Spells.call hopens hcloser (Spells.blanks ha) ha
    case some v =>
      obtain ⟨items, hs, hfinish⟩ := ha
      exact Spells.call hopens hcloser hs (hfinish closer.position)
  rw [ht, call_of_opens ho] at hcall
  simpa using hcall.around hf (Token.visible_eq_nil_iff.mp hb)

mutual

-- What writes a value spells it, whatever white space is in between.
theorem spellsAs_of_writes {level : Level} {ts : List Placed} (v : Value)
    (hs : hasShape level v) (h : v.Writes (visible ts)) : SpellsAs level ts v := by
  match v with
  | size _ | keyword _ | hex _ | string _ | url _ =>
    obtain ⟨u, hl, hu⟩ := h
    exact SpellsAs.of_component (spells_of_isLeafOf hl hu)
  | function kind name arguments =>
    obtain ⟨opener, inner, ho, ha, ht⟩ := h
    simp only [hasShape, Bool.and_eq_true, beq_iff_eq] at hs
    rw [hs.1]
    refine SpellsAs.of_component (spells_of_call ho ht fun us hus => ?_)
    subst hus
    match arguments with
    | some v => exact spellsAs_of_writes v hs.2 ha
    | none => exact Token.visible_eq_nil_iff.mp ha
  | pair first second =>
    obtain ⟨hlevel, hfirst, hsecond⟩ := hasShape_pair hs
    obtain ⟨front, back, hf, hb, ht⟩ := h
    obtain ⟨us, rest, rfl, rfl, hr⟩ := Token.exists_of_visible_eq_append ht
    obtain ⟨blanks, slash, vs, rfl, hblank, hslash, rfl⟩ := Token.exists_of_visible_eq_cons hr
    have hf' : first.Writes (visible (us ++ blanks)) := by
      rwa [Token.visible_append, Token.visible_eq_nil_iff.mpr hblank, List.append_nil]
    have := spellsAs_pair (spellsAs_of_writes first hfirst hf')
      (spellsAs_of_writes second hsecond hb) hslash
    rw [List.append_assoc] at this
    exact SpellsAs.of_word hlevel this
  | list .space items =>
    obtain ⟨hlevel, hlen, hitems⟩ : (level = .group ∨ level = .whole) ∧ 2 ≤ items.length ∧
        itemsHaveShape .word items := by
      cases level <;> simp_all [hasShape]
    obtain ⟨pieces, hp, ht⟩ := h
    have hn : items ≠ [] := List.ne_nil_of_length_pos (by omega)
    have hg := spellsAs_spaceList (joined_of_words items hn hitems hp ht)
    rw [spaceList, ← list_eq_join hlen] at hg
    rcases hlevel with rfl | rfl
    · exact hg
    · exact hg.whole_of_group
  | list .comma items =>
    obtain ⟨rfl, hlen, hitems⟩ : level = .whole ∧ 2 ≤ items.length ∧
        itemsHaveShape .group items := by
      cases level <;> simp_all [hasShape]
    obtain ⟨pieces, hp, ht⟩ := h
    have hn : items ≠ [] := List.ne_nil_of_length_pos (by omega)
    have hw := spellsAs_commaList (joined_of_groups items hn hitems hp ht)
    rwa [commaList, ← list_eq_join hlen] at hw

theorem joined_of_words {pieces : List (List Token)} {ts : List Placed} (items : List Value)
    (hn : items ≠ []) (hs : itemsHaveShape .word items) (h : WritesItems items pieces)
    (ht : visible ts = pieces.flatten) :
    Joined .word (fun us => ∀ u ∈ us, u.token = .whitespace) ts items := by
  match items, pieces with
  | [], _ => contradiction
  | [v], [piece] =>
    simp only [itemsHaveShape, Bool.and_true] at hs
    rw [List.flatten_singleton] at ht
    exact .single (spellsAs_of_writes v hs (ht ▸ h.1))
  | v :: w :: items, piece :: pieces =>
    rw [itemsHaveShape, Bool.and_eq_true] at hs
    rw [List.flatten_cons] at ht
    obtain ⟨us, rest, rfl, rfl, hr⟩ := Token.exists_of_visible_eq_append ht
    exact .more (spellsAs_of_writes v hs.1 h.1) (List.forall_mem_nil _)
      (joined_of_words (w :: items) (by simp) hs.2 h.2 hr)

theorem joined_of_groups {pieces : List (List Token)} {ts : List Placed} (items : List Value)
    (hn : items ≠ []) (hs : itemsHaveShape .group items) (h : WritesItems items pieces)
    (ht : visible ts = [.comma].intercalate pieces) :
    Joined .group (fun us => ∃ comma blanks, us = comma :: blanks ∧ comma.token = .comma ∧
      ∀ u ∈ blanks, u.token = .whitespace) ts items := by
  match items, pieces with
  | [], _ => contradiction
  | [v], [piece] =>
    simp only [itemsHaveShape, Bool.and_true] at hs
    rw [List.intercalate_singleton] at ht
    exact .single (spellsAs_of_writes v hs (ht ▸ h.1))
  | v :: w :: items, piece :: piece' :: pieces =>
    rw [itemsHaveShape, Bool.and_eq_true] at hs
    have ht : visible ts = piece ++ .comma :: [.comma].intercalate (piece' :: pieces) := by
      simpa [List.intercalate] using ht
    obtain ⟨us, rest, rfl, rfl, hr⟩ := Token.exists_of_visible_eq_append ht
    obtain ⟨blanks, comma, vs, rfl, hblank, hcomma, hv⟩ := Token.exists_of_visible_eq_cons hr
    have hf : v.Writes (visible (us ++ blanks)) := by
      rw [Token.visible_append, Token.visible_eq_nil_iff.mpr hblank, List.append_nil]
      exact h.1
    have := Joined.more (spellsAs_of_writes v hs.1 hf)
      ⟨comma, [], rfl, hcomma, by simp⟩ (joined_of_groups (w :: items) (by simp) hs.2 h.2 hv)
    simpa using this

end

-- The runs that a value is read from are those that write it.
theorem ofTokens_eq_ok_iff {ts : List Placed} {finish : Position} :
    ofTokens ts finish = .ok v ↔ hasShape .whole v ∧ v.Writes (visible ts) := by
  constructor
  case mp => exact fun h => ⟨hasShape_of_ofTokens h, writes_of_ofTokens h⟩
  case mpr =>
    rintro ⟨hs, h⟩
    simpa using ofTokens_of_spellsAs (spellsAs_of_writes v hs h) (List.forall_mem_nil _)
      (List.forall_mem_nil _) finish

-- A value that is read loses and adds nothing: it is written by the tokens of its run that are not
-- white space, and read from every other run with these tokens.
theorem ofTokens_faithful {ts : List Placed} {finish : Position} (h : ofTokens ts finish = .ok v) :
    hasShape .whole v ∧ v.Writes (visible ts) ∧
      ∀ us finish', visible us = visible ts → ofTokens us finish' = .ok v := by
  obtain ⟨hs, hw⟩ := ofTokens_eq_ok_iff.mp h
  exact ⟨hs, hw, fun us finish' he => ofTokens_eq_ok_iff.mpr ⟨hs, he ▸ hw⟩⟩

theorem ofTokens_faithful_call :
    let p : Position := ⟨1, 1⟩
    let run : List Placed := [⟨.function "f", p⟩, ⟨.whitespace, p⟩, ⟨.identifier "a", p⟩,
      ⟨.slash, p⟩, ⟨.hash "ABC", p⟩, ⟨.comma, p⟩, ⟨.identifier "c", p⟩, ⟨.whitespace, p⟩,
      ⟨.closeParen, p⟩, ⟨.string "d", p⟩]
    let v := list .space [function .plain "f" (some (list .comma
      [pair (keyword "a") (hex "abc"), keyword "c"])), string "d"]
    ofTokens run p = .ok v ∧ hasShape .whole v ∧
      v.Writes [.function "f", .identifier "a", .slash, .hash "ABC", .comma, .identifier "c",
        .closeParen, .string "d"] ∧
      ofTokens (run.filter (!·.token.isWhitespace)) p = .ok v := by
  intro p run v
  have h : ofTokens run p = .ok v := by
    simp only [run, v, p]
    rfl
  obtain ⟨hs, hw, hr⟩ := ofTokens_faithful h
  exact ⟨h, hs, hw, hr _ p rfl⟩

end Value
end Stylesheet
