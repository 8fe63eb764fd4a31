import Mathlib.Data.List.Forall2
import Stylesheet.Proofs.Value.Shape
/-!
Reading values back from tokens. A run of tokens spells items if it is nested and read to them
wherever it stands, so that a value is spelled by the tokens of its parts with separators between
them. Main statements: the parts of each level (`SpellsAs`), and `ofTokens_of_spellsAs`.
-/

namespace Stylesheet.Value

variable {ts us : List Placed} {is js : List Item} {t : Placed} {v w : Value} {level : Level}

theorem nestedItems_append (ns ms : List Nested) :
    nestedItems (ns ++ ms) =
      (nestedItems ns).bind fun is => (nestedItems ms).map fun js => is ++ js := by
  induction ns
  case nil =>
    rw [List.nil_append]
    cases nestedItems ms <;> rfl
  case cons n ns ih =>
    simp only [List.cons_append, nestedItems, ih, bind, pure]
    cases nestedItem n
    case error => rfl
    case ok item =>
      cases nestedItems ns
      case error => rfl
      case ok =>
        cases nestedItems ms <;> simp [Except.bind, Except.map, Except.pure]

-- What a run of tokens is read to, whatever stands around it.
def Spells (ts : List Placed) (items : List Item) : Prop :=
  ∃ ns, nestedItems ns = .ok items ∧ ∀ stack done rest,
    Nested.ofRun stack done (ts ++ rest) = Nested.ofRun stack (done ++ ns) rest

namespace Spells

theorem nil : Spells [] [] :=
  ⟨[], rfl, by simp⟩

theorem append (h₁ : Spells ts is) (h₂ : Spells us js) : Spells (ts ++ us) (is ++ js) := by
  obtain ⟨ns, hns, hts⟩ := h₁
  obtain ⟨ms, hms, hus⟩ := h₂
  refine ⟨ns ++ ms, ?_, fun stack done rest => ?_⟩
  · simp [nestedItems_append, hns, hms, Except.bind, Except.map]
  · rw [List.append_assoc, hts, hus, List.append_assoc]

theorem leaf {item : Option Item} (hl : leafItem t = .ok item) : Spells [t] item.toList := by
  have ho : t.token.opensParen = false := by
    obtain ⟨token, _⟩ := t
    cases token
    case function | openParen => cases hl
    all_goals rfl
  have hc : t.token ≠ .closeParen := by
    intro hc
    simp [leafItem, hc] at hl
  refine ⟨[.leaf t], ?_, fun stack done rest => ?_⟩
  · simp [nestedItems, nestedItem, hl, bind, Except.bind, pure, Except.pure]
  · rw [List.cons_append, List.nil_append, Nested.ofRun, if_neg (by simp [ho])]
    exact fun _ _ _ he => absurd he hc

theorem blanks (h : ∀ t ∈ ts, t.token = .whitespace) : Spells ts [] := by
  induction ts
  case nil => exact nil
  case cons t ts ih =>
    obtain ⟨ht, hts⟩ := List.forall_mem_cons.mp h
    have hl : leafItem t = .ok none := by simp [leafItem, ht]
    exact append (leaf hl) (ih hts)

theorem ofRun_of_blanks {done : List Nested} (h : ∀ t ∈ ts, t.token = .whitespace) :
    Nested.ofRun [] done ts = done ++ ts.map .leaf := by
  induction ts generalizing done
  case nil => simp [Nested.ofRun]
  case cons t ts ih =>
    obtain ⟨ht, hts⟩ := List.forall_mem_cons.mp h
    simp [Nested.ofRun, ht, Token.opensParen, ih hts]

theorem leafItem_of_isWhitespace (h : (Nested.leaf t).isWhitespace) : leafItem t = .ok none := by
  simp only [Nested.isWhitespace] at h
  obtain ⟨token, p⟩ := t
  cases token <;> first | rfl | cases h

-- White space alone spells nothing.
theorem eq_nil_of_isWhitespace {ns : List Nested} (h : nestedItems ns = .ok is)
    (hb : ns.all Nested.isWhitespace) : is = [] := by
  induction ns generalizing is
  case nil => exact (Except.ok.inj h).symm
  case cons n ns ih =>
    rw [List.all_cons, Bool.and_eq_true] at hb
    cases n
    case group => exact absurd hb.1 (by simp [Nested.isWhitespace])
    case leaf u =>
      simp only [nestedItems, nestedItem, leafItem_of_isWhitespace hb.1, bind, Except.bind] at h
      cases hr : nestedItems ns
      case error => simp [hr] at h
      case ok more =>
        rw [hr] at h
        have := Except.ok.inj h
        simp only [Option.toList_none, List.nil_append] at this
        exact this ▸ ih hr hb.2

-- The items of an opening token, its arguments and a closing parenthesis.
theorem call {opener closer : Placed} {arguments : Option Value}
    (ho : opener.token.opensParen) (hc : closer.token = .closeParen) (h : Spells ts is)
    (ha : match arguments with
      | some v => ofItems is closer.position = .ok v
      | none => ∀ t ∈ ts, t.token = .whitespace) :
    Spells (opener :: (ts ++ [closer])) [.part (.value (Value.call opener.token arguments))] := by
  obtain ⟨ns, hns, hts⟩ := h
  refine ⟨[.group opener ns closer.position], ?_, fun stack done rest => ?_⟩
  · cases arguments
    case none =>
      have hn : ns = ts.map .leaf := by
        have := hts [] [] []
        simpa [Nested.ofRun, ofRun_of_blanks ha] using this.symm
      have hblank : ns.all Nested.isWhitespace := by
        simpa [hn, Nested.isWhitespace] using fun t ht => by simp [ha t ht, Token.isWhitespace]
      simp [nestedItems, nestedItem, hns, hblank, bind, Except.bind, pure, Except.pure]
    case some v =>
      -- Nothing is no value.
      have hblank : ns.all Nested.isWhitespace = false := by
        refine Bool.eq_false_iff.mpr fun hb => ?_
        obtain rfl := eq_nil_of_isWhitespace hns hb
        simp [ofItems_eq, splitAtCommas, Except.bind] at ha
      simp [nestedItems, nestedItem, hns, hblank, ha, bind, Except.bind, pure, Except.pure,
        Functor.map, Except.map]
  · rw [List.cons_append, Nested.ofRun, if_pos ho, List.append_assoc, hts, List.singleton_append,
      Nested.ofRun, if_neg (by simp [hc, Token.opensParen]), List.nil_append]
    · exact hc
    · intro _ _ _ he
      simp [he, Token.opensParen] at ho

end Spells

/-! ### Levels -/

-- Parts that go on a row of words by the word `w`.
def IsWord (parts : List Part) (w : Value) : Prop :=
  ∀ current rest,
    words current (parts ++ rest) = (words (some w) rest).map (current.toList ++ ·)

-- What a value is spelled by as a part of its level.
def SpellsAs : Level → List Placed → Value → Prop
  | .component, ts, v => Spells ts [.part (.value v)]
  | .word, ts, v => ∃ parts, Spells ts (parts.map .part) ∧ IsWord parts v
  | .group, ts, v => ∃ parts, Spells ts (parts.map .part) ∧ parts ≠ [] ∧ group parts = .ok v
  | .whole, ts, v => ∃ items, Spells ts items ∧ ∀ finish, ofItems items finish = .ok v

theorem isWord_value (v : Value) : IsWord [.value v] v :=
  fun _ _ => by rw [List.singleton_append, words]

theorem IsWord.ne_nil {parts : List Part} (h : IsWord parts w) : parts ≠ [] := by
  rintro rfl
  have := h none []
  simp [words, Except.map] at this

theorem words_flatten {current : Option Value} {pss : List (List Part)} {ws : List Value}
    (h : List.Forall₂ IsWord pss ws) : words current pss.flatten = .ok (current.toList ++ ws) := by
  induction h generalizing current
  case nil => simp [words]
  case cons hw _ ih =>
    rw [List.flatten_cons, hw, ih]
    simp [Except.map]

theorem splitAtCommas_parts (finish : Position) (ps : List Part) (front : List Part)
    (rest : List Item) : splitAtCommas finish front (ps.map .part ++ rest) =
      splitAtCommas finish (front ++ ps) rest := by
  induction ps generalizing front
  case nil => simp
  case cons p ps ih => rw [List.map_cons, List.cons_append, splitAtCommas, ih]; simp

theorem SpellsAs.word_of_component (h : SpellsAs .component ts v) : SpellsAs .word ts v :=
  ⟨[.value v], h, isWord_value v⟩

theorem SpellsAs.group_of_word (h : SpellsAs .word ts v) : SpellsAs .group ts v := by
  obtain ⟨parts, hs, hw⟩ := h
  refine ⟨parts, hs, hw.ne_nil, ?_⟩
  have := hw none []
  rw [List.append_nil] at this
  simp [group, this, words, Except.map, spaceList, join]

theorem SpellsAs.whole_of_group (h : SpellsAs .group ts v) : SpellsAs .whole ts v := by
  obtain ⟨parts, hs, hn, hg⟩ := h
  refine ⟨_, hs, fun finish => ?_⟩
  have hsplit : splitAtCommas finish [] (parts.map .part) = .ok [parts] := by
    have := splitAtCommas_parts finish parts [] []
    rw [List.append_nil] at this
    simp [this, splitAtCommas, hn]
  simp [ofItems_eq, hsplit, Except.bind, hg, bind, pure, Except.pure, Except.map, commaList, join]

theorem SpellsAs.of_component (h : SpellsAs .component ts v) : SpellsAs level ts v := by
  cases level
  case component => exact h
  case word => exact h.word_of_component
  case group => exact h.word_of_component.group_of_word
  case whole => exact h.word_of_component.group_of_word.whole_of_group

theorem SpellsAs.of_word (hl : level ≠ .component) (h : SpellsAs .word ts v) :
    SpellsAs level ts v := by
  cases level
  case component => contradiction
  case word => exact h
  case group => exact h.group_of_word
  case whole => exact h.group_of_word.whole_of_group

theorem spellsAs_pair (hv : SpellsAs .word ts v) (hw : SpellsAs .component us w)
    (ht : t.token = .slash) : SpellsAs .word (ts ++ t :: us) (pair v w) := by
  obtain ⟨parts, hs, hp⟩ := hv
  have hl : leafItem t = .ok (some (.part (.slash t.position))) := by simp [leafItem, ht]
  have hslash := Spells.leaf hl
  refine ⟨parts ++ [.slash t.position, .value w], ?_, fun current rest => ?_⟩
  · simpa using hs.append (hslash.append hw)
  · rw [List.append_assoc, hp]
    rfl

theorem list_eq_join {separator : Separator} {items : List Value} (h : 2 ≤ items.length) :
    list separator items = join separator items := by
  match items with
  | _ :: _ :: _ => rfl

-- The tokens of values with separators between them.
inductive Joined (level : Level) (separates : List Placed → Prop) :
    List Placed → List Value → Prop
  | single {ts : List Placed} {v : Value} (h : SpellsAs level ts v) :
    Joined level separates ts [v]
  | more {ts between us : List Placed} {v : Value} {vs : List Value} (h : SpellsAs level ts v)
    (hb : separates between) (hs : Joined level separates us vs) :
    Joined level separates (ts ++ (between ++ us)) (v :: vs)

theorem spellsAs_spaceList {vs : List Value}
    (h : Joined .word (fun us => ∀ u ∈ us, u.token = .whitespace) ts vs) :
    SpellsAs .group ts (spaceList vs) := by
  have hparts : ∃ pss, Spells ts (pss.flatten.map .part) ∧ List.Forall₂ IsWord pss vs := by
    induction h
    case single h =>
      obtain ⟨parts, hs, hw⟩ := h
      exact ⟨[parts], by simpa using hs, .cons hw .nil⟩
    case more h hb _ ih =>
      obtain ⟨parts, hs, hw⟩ := h
      obtain ⟨pss, hss, hws⟩ := ih
      refine ⟨parts :: pss, ?_, .cons hw hws⟩
      simpa using hs.append ((Spells.blanks hb).append hss)
  obtain ⟨pss, hs, hw⟩ := hparts
  refine ⟨_, hs, ?_, ?_⟩
  · cases h
    case single h => cases hw with | cons hw _ => simp [hw.ne_nil]
    case more => cases hw with | cons hw _ => simp [hw.ne_nil]
  · simp [group, words_flatten hw, Except.map]

theorem spellsAs_commaList {vs : List Value}
    (h : Joined .group (fun us => ∃ comma blanks, us = comma :: blanks ∧ comma.token = .comma ∧
      ∀ u ∈ blanks, u.token = .whitespace) ts vs) :
    SpellsAs .whole ts (commaList vs) := by
  have hitems : ∃ items, Spells ts items ∧ ∀ finish, ∃ parts,
      splitAtCommas finish [] items = .ok parts ∧ parts.mapM group = .ok vs := by
    induction h
    case single h =>
      obtain ⟨ps, hs, hn, hg⟩ := h
      refine ⟨_, hs, fun finish => ⟨[ps], ?_, ?_⟩⟩
      · have := splitAtCommas_parts finish ps [] []
        rw [List.append_nil] at this
        simp [this, splitAtCommas, hn]
      · simp [hg, bind, Except.bind, pure, Except.pure]
    case more h hb _ ih =>
      obtain ⟨ps, hs, hn, hg⟩ := h
      obtain ⟨items, hss, hsplit⟩ := ih
      obtain ⟨comma, blanks, rfl, hc, hblank⟩ := hb
      have hl : leafItem comma = .ok (some (.comma comma.position)) := by simp [leafItem, hc]
      refine ⟨_, hs.append (((Spells.leaf hl).append (Spells.blanks hblank)).append hss), fun finish => ?_⟩
      obtain ⟨parts, hp, hm⟩ := hsplit comma.position
      refine ⟨ps :: parts, ?_, ?_⟩
      · rw [splitAtCommas_parts]
        simp [splitAtCommas, hn, hp, Except.map]
      · rw [List.mapM_cons, hg, hm]
        rfl
  obtain ⟨items, hs, hsplit⟩ := hitems
  refine ⟨items, hs, fun finish => ?_⟩
  obtain ⟨parts, hp, hm⟩ := hsplit finish
  simp [ofItems_eq, hp, hm, Except.bind, Except.map]

theorem Spells.nestedItems_ofRun (h : Spells ts is) :
    nestedItems (Nested.ofRun [] [] ts) = .ok is := by
  obtain ⟨ns, hns, hrun⟩ := h
  have hrun := hrun [] [] []
  rw [List.append_nil, List.nil_append] at hrun
  rw [hrun]
  exact hns

-- A value is read back from what spells it, and from white space around that.
theorem ofTokens_of_spellsAs {front back : List Placed} (h : SpellsAs .whole ts v)
    (hf : ∀ t ∈ front, t.token = .whitespace) (hb : ∀ t ∈ back, t.token = .whitespace)
    (finish : Position) : ofTokens (front ++ (ts ++ back)) finish = .ok v := by
  obtain ⟨items, hs, ho⟩ := h
  have hs := (Spells.blanks hf).append (hs.append (Spells.blanks hb))
  rw [List.append_nil, List.nil_append] at hs
  exact ofTokens_eq_ok_iff_ofItems.mpr ⟨items, hs.nestedItems_ofRun, ho finish⟩

end Stylesheet.Value
