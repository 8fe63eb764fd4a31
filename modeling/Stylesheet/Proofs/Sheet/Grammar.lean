import Stylesheet.Proofs.Sheet.Bodies
import Stylesheet.Proofs.Sheet.Reading
/-!
The grammar of style sheets, over tokens. In the midst of a derivation, what is being derived and
the at-rules that are open say what must follow (`Levels`, `Braced`, `InPrelude`), and the next token
tells how the derivation goes on (`levels_cons_iff` and those like it).
-/

namespace Stylesheet

namespace Grammar

-- Tokens within a prelude or a value.
def IsRun (ts : List Placed) : Prop :=
  ∀ t ∈ ts, t.token.staysIn

def AreBlank (ts : List Placed) : Prop :=
  ∀ t ∈ ts, t.token = .whitespace

-- Tokens that make a value, `!important` behind it apart. Where they end does not matter.
def IsValue (run : List Placed) : Prop :=
  ¬(splitImportant run).2.all (·.token.isWhitespace) ∧
    ∃ finish v, Value.ofTokens (splitImportant run).2 finish = .ok v

-- Tokens whose texts make a list of selectors.
def AreSelectors (prelude : List Token) : Prop :=
  ∃ selectors, Selector.listOfText (Reader.preludeText prelude) = .ok selectors

structure IsPrelude (ts : List Placed) : Prop where
  isRun : IsRun ts
  starts : ∀ t ∈ ts.head?, t.token ≠ .whitespace ∧ ∀ name, t.token ≠ .atKeyword name
  areSelectors : AreSelectors (ts.map Placed.token)

-- A declaration without its semicolon.
inductive IsDeclaration : List Placed → Prop
  | intro {name colon : Placed} {word : String} {blanks run : List Placed}
    (hn : name.token = .identifier word) (hb : AreBlank blanks) (hc : colon.token = .colon)
    (hr : IsRun run) (hv : IsValue run) : IsDeclaration (name :: (blanks ++ colon :: run))

-- What stands between the braces of a block.
inductive IsRules : List Placed → Prop
  | nil : IsRules []
  | blank {t : Placed} {ts : List Placed} (ht : t.token = .whitespace) (h : IsRules ts) :
    IsRules (t :: ts)
  | semicolon {t : Placed} {ts : List Placed} (ht : t.token = .semicolon) (h : IsRules ts) :
    IsRules (t :: ts)
  | declaration {semicolon : Placed} {d ts : List Placed} (hd : IsDeclaration d)
    (hs : semicolon.token = .semicolon) (h : IsRules ts) : IsRules (d ++ semicolon :: ts)
  -- The last one may do without its semicolon.
  | last {d : List Placed} (hd : IsDeclaration d) : IsRules d

inductive IsSheet : List Placed → Prop
  | nil : IsSheet []
  | blank {t : Placed} {ts : List Placed} (ht : t.token = .whitespace) (h : IsSheet ts) :
    IsSheet (t :: ts)
  | block {opener closer : Placed} {prelude rules ts : List Placed} (hp : IsPrelude prelude)
    (ho : opener.token = .openBrace) (hi : IsRules rules) (hc : closer.token = .closeBrace)
    (h : IsSheet ts) : IsSheet (prelude ++ opener :: (rules ++ closer :: ts))
  | statement {t semicolon : Placed} {name : String} {run ts : List Placed}
    (hn : t.token = .atKeyword name) (hr : IsRun run) (hs : semicolon.token = .semicolon)
    (h : IsSheet ts) : IsSheet (t :: (run ++ semicolon :: ts))
  -- A statement without its semicolon ends with what it is in.
  | unended {t : Placed} {name : String} {run : List Placed} (hn : t.token = .atKeyword name)
    (hr : IsRun run) : IsSheet (t :: run)
  | atSet {t opener closer : Placed} {name : String} {run rules ts : List Placed}
    (hn : t.token = .atKeyword name) (hh : holdsDeclarations (Text.lower name)) (hr : IsRun run)
    (ho : opener.token = .openBrace) (hi : IsRules rules) (hc : closer.token = .closeBrace)
    (h : IsSheet ts) : IsSheet (t :: (run ++ opener :: (rules ++ closer :: ts)))
  | atBlock {t opener closer : Placed} {name : String} {run contents ts : List Placed}
    (hn : t.token = .atKeyword name) (hh : holdsDeclarations (Text.lower name) = false)
    (hr : IsRun run) (ho : opener.token = .openBrace) (hi : IsSheet contents)
    (hc : closer.token = .closeBrace) (h : IsSheet ts) :
    IsSheet (t :: (run ++ opener :: (contents ++ closer :: ts)))

/-! ### What is to come -/

mutual

-- The rest of a sheet in so many at-rules.
inductive Levels : Nat → List Placed → Prop
  | intro {n : Nat} {ts us : List Placed} (hs : IsSheet us) (h : Closes n ts) : Levels n (us ++ ts)

-- The ends of so many at-rules, and what is between and behind them.
inductive Closes : Nat → List Placed → Prop
  | text : Closes 0 []
  | closer {n : Nat} {t : Placed} {ts : List Placed} (ht : t.token = .closeBrace)
    (h : Levels n ts) : Closes (n + 1) (t :: ts)

end

-- The rest of a text within braces. What is still to come in them has some form.
inductive Braced (form : List Placed → Prop) (n : Nat) : List Placed → Prop
  | intro {closer : Placed} {us ts : List Placed} (hf : form us) (hc : closer.token = .closeBrace)
    (h : Levels n ts) : Braced form n (us ++ closer :: ts)

-- The rest of a value, and the declarations behind it.
inductive InValue (front : List Placed) : List Placed → Prop
  | more {semicolon : Placed} {run ts : List Placed} (hr : IsRun run) (hv : IsValue (front ++ run))
    (hs : semicolon.token = .semicolon) (h : IsRules ts) : InValue front (run ++ semicolon :: ts)
  | last {run : List Placed} (hr : IsRun run) (hv : IsValue (front ++ run)) : InValue front run

inductive AfterName : List Placed → Prop
  | intro {colon : Placed} {blanks ts : List Placed} (hb : AreBlank blanks)
    (hc : colon.token = .colon) (h : InValue [] ts) : AfterName (blanks ++ colon :: ts)

-- The rest of a prelude, and what is behind it.
inductive InPrelude (front : List Token) (n : Nat) : List Placed → Prop
  | intro {opener : Placed} {run ts : List Placed} (hr : IsRun run)
    (hs : AreSelectors (front ++ run.map Placed.token)) (ho : opener.token = .openBrace)
    (h : Braced IsRules n ts) : InPrelude front n (run ++ opener :: ts)

-- What is behind the prelude of an at-rule.
inductive AtRuleEnds (name : String) : Nat → List Placed → Prop
  | semicolon {n : Nat} {t : Placed} {ts : List Placed} (ht : t.token = .semicolon)
    (h : Levels n ts) : AtRuleEnds name n (t :: ts)
  | unended {n : Nat} {ts : List Placed} (h : Closes n ts) : AtRuleEnds name n ts
  | atSet {n : Nat} {t : Placed} {ts : List Placed} (hh : holdsDeclarations name)
    (ht : t.token = .openBrace) (h : Braced IsRules n ts) : AtRuleEnds name n (t :: ts)
  | atBlock {n : Nat} {t : Placed} {ts : List Placed} (hh : holdsDeclarations name = false)
    (ht : t.token = .openBrace) (h : Levels (n + 1) ts) : AtRuleEnds name n (t :: ts)

inductive InAtPrelude (name : String) (n : Nat) : List Placed → Prop
  | intro {run ts : List Placed} (hr : IsRun run) (h : AtRuleEnds name n ts) :
    InAtPrelude name n (run ++ ts)

variable {n : Nat} {t : Placed} {ts us run : List Placed} {form : List Placed → Prop}
  {front : List Token} {name : String}

theorem isRun_cons : IsRun (t :: run) ↔ t.token.staysIn ∧ IsRun run :=
  List.forall_mem_cons

/-! ### Declarations -/

-- No declaration begins with anything but its name.
theorem isRules_cons_iff : IsRules (t :: ts) ↔
    ((t.token = .whitespace ∨ t.token = .semicolon) ∧ IsRules ts) ∨
      (∃ word, t.token = .identifier word) ∧ AfterName ts := by
  constructor
  · intro h
    generalize hx : t :: ts = xs at h
    cases h
    case nil => cases hx
    case blank ht h =>
      cases hx
      exact .inl ⟨.inl ht, h⟩
    case semicolon ht h =>
      cases hx
      exact .inl ⟨.inr ht, h⟩
    case declaration hd hs h =>
      obtain ⟨hn, hb, hc, hr, hv⟩ := hd
      rw [List.cons_append] at hx
      obtain ⟨rfl, rfl⟩ := List.cons.inj hx
      rw [List.append_assoc, List.cons_append]
      exact .inr ⟨⟨_, hn⟩, .intro hb hc (.more hr hv hs h)⟩
    case last hd =>
      obtain ⟨hn, hb, hc, hr, hv⟩ := hd
      obtain ⟨rfl, rfl⟩ := List.cons.inj hx
      exact .inr ⟨⟨_, hn⟩, .intro hb hc (.last hr hv)⟩
  · rintro (⟨ht | ht, h⟩ | ⟨⟨word, hn⟩, @⟨colon, blanks, us, hb, hc, h⟩⟩)
    · exact .blank ht h
    · exact .semicolon ht h
    · cases h
      case more semicolon run ts hr hv hs h =>
        have := IsRules.declaration (.intro hn hb hc hr hv) hs h
        rwa [List.cons_append, List.append_assoc, List.cons_append] at this
      case last hr hv => exact .last (.intro hn hb hc hr hv)

theorem afterName_nil : ¬AfterName [] := by
  intro h
  generalize hx : [] = xs at h
  cases h
  simp at hx

theorem afterName_cons_iff : AfterName (t :: ts) ↔
    t.token = .whitespace ∧ AfterName ts ∨ t.token = .colon ∧ InValue [] ts := by
  constructor
  · intro h
    generalize hx : t :: ts = xs at h
    obtain @⟨colon, blanks, us, hb, hc, h⟩ := h
    cases blanks
    case nil =>
      obtain ⟨rfl, rfl⟩ := List.cons.inj hx
      exact .inr ⟨hc, h⟩
    case cons blank blanks =>
      obtain ⟨rfl, rfl⟩ := List.cons.inj hx
      obtain ⟨ht, hb⟩ := List.forall_mem_cons.mp hb
      exact .inl ⟨ht, .intro hb hc h⟩
  · rintro (⟨ht, @⟨colon, blanks, us, hb, hc, h⟩⟩ | ⟨hc, h⟩)
    · exact @AfterName.intro colon (t :: blanks) us (List.forall_mem_cons.mpr ⟨ht, hb⟩) hc h
    · exact @AfterName.intro t [] ts (by simp [AreBlank]) hc h

theorem inValue_nil_iff {front : List Placed} : InValue front [] ↔ IsValue front := by
  constructor
  · intro h
    generalize hx : [] = xs at h
    cases h
    case more => simp at hx
    case last hr hv =>
      subst hx
      rwa [List.append_nil] at hv
  · exact fun h => .last (by simp [IsRun]) (by rwa [List.append_nil])

theorem inValue_cons_iff {front : List Placed} : InValue front (t :: ts) ↔
    t.token.staysIn ∧ InValue (front ++ [t]) ts ∨
      t.token = .semicolon ∧ IsValue front ∧ IsRules ts := by
  constructor
  · intro h
    generalize hx : t :: ts = xs at h
    cases h
    case more semicolon run us hr hv hs h =>
      cases run
      case nil =>
        obtain ⟨rfl, rfl⟩ := List.cons.inj hx
        exact .inr ⟨hs, by rwa [List.append_nil] at hv, h⟩
      case cons u run =>
        obtain ⟨rfl, rfl⟩ := List.cons.inj hx
        obtain ⟨ht, hr⟩ := isRun_cons.mp hr
        exact .inl ⟨ht, .more hr (by rwa [List.append_assoc]) hs h⟩
    case last hr hv =>
      subst hx
      obtain ⟨ht, hr⟩ := isRun_cons.mp hr
      exact .inl ⟨ht, .last hr (by rwa [List.append_assoc])⟩
  · rintro (⟨ht, h⟩ | ⟨ht, hv, h⟩)
    · cases h
      case more semicolon run us hr hv hs h =>
        rw [List.append_assoc] at hv
        exact @InValue.more _ semicolon (t :: run) us (isRun_cons.mpr ⟨ht, hr⟩) hv hs h
      case last hr hv =>
        rw [List.append_assoc] at hv
        exact .last (isRun_cons.mpr ⟨ht, hr⟩) hv
    · exact @InValue.more _ t [] ts (by simp [IsRun]) (by rwa [List.append_nil]) ht h

/-! ### Levels -/

theorem closes_cons_iff :
    Closes n (t :: ts) ↔ t.token = .closeBrace ∧ ∃ m, n = m + 1 ∧ Levels m ts := by
  constructor
  · rintro (_ | ⟨ht, h⟩)
    exact ⟨ht, _, rfl, h⟩
  · rintro ⟨ht, m, rfl, h⟩
    exact .closer ht h

-- What is between the nodes of a sheet begins with a node or is at an end.
theorem levels_cons_iff : Levels n (t :: ts) ↔
    Closes n (t :: ts) ∨ ∃ us vs, ts = us ++ vs ∧ IsSheet (t :: us) ∧ Closes n vs := by
  constructor
  · intro h
    generalize hx : t :: ts = xs at h
    obtain @⟨_, vs, us, hs, hc⟩ := h
    cases us
    case nil =>
      subst hx
      exact .inl hc
    case cons u us =>
      obtain ⟨rfl, rfl⟩ := List.cons.inj hx
      exact .inr ⟨us, vs, rfl, hs, hc⟩
  · rintro (h | ⟨us, vs, rfl, hs, hc⟩)
    · exact .intro .nil h
    · exact .intro hs hc

theorem levels_nil_iff : Levels n [] ↔ n = 0 := by
  constructor
  · intro h
    generalize hx : [] = xs at h
    obtain @⟨_, vs, us, -, hc⟩ := h
    obtain ⟨rfl, rfl⟩ := List.append_eq_nil_iff.mp hx.symm
    cases hc
    rfl
  · rintro rfl
    exact .intro .nil .text

theorem braced_cons_iff : Braced form n (t :: ts) ↔
    t.token = .closeBrace ∧ form [] ∧ Levels n ts ∨ Braced (fun us => form (t :: us)) n ts := by
  constructor
  · intro h
    generalize hx : t :: ts = xs at h
    obtain @⟨closer, us, vs, hf, hc, h⟩ := h
    cases us
    case nil =>
      obtain ⟨rfl, rfl⟩ := List.cons.inj hx
      exact .inl ⟨hc, hf, h⟩
    case cons u us =>
      obtain ⟨rfl, rfl⟩ := List.cons.inj hx
      exact .inr (.intro hf hc h)
  · rintro (⟨hc, hf, h⟩ | @⟨closer, us, vs, hf, hc, h⟩)
    · exact @Braced.intro _ _ t [] ts hf hc h
    · exact @Braced.intro _ _ closer (t :: us) vs hf hc h

theorem not_braced_nil : ¬Braced form n [] := by
  intro h
  generalize hx : [] = xs at h
  cases h
  simp at hx

theorem inPrelude_cons_iff : InPrelude front n (t :: ts) ↔
    t.token.staysIn ∧ InPrelude (front ++ [t.token]) n ts ∨
      t.token = .openBrace ∧ AreSelectors front ∧ Braced IsRules n ts := by
  constructor
  · intro h
    generalize hx : t :: ts = xs at h
    obtain @⟨opener, run, us, hr, hs, ho, h⟩ := h
    cases run
    case nil =>
      obtain ⟨rfl, rfl⟩ := List.cons.inj hx
      rw [List.map_nil, List.append_nil] at hs
      exact .inr ⟨ho, hs, h⟩
    case cons u run =>
      obtain ⟨rfl, rfl⟩ := List.cons.inj hx
      obtain ⟨ht, hr⟩ := isRun_cons.mp hr
      exact .inl ⟨ht, .intro hr (by rwa [List.append_assoc]) ho h⟩
  · rintro (⟨ht, @⟨opener, run, us, hr, hs, ho, h⟩⟩ | ⟨ho, hs, h⟩)
    · rw [List.append_assoc] at hs
      exact @InPrelude.intro _ _ opener (t :: run) us (isRun_cons.mpr ⟨ht, hr⟩) hs ho h
    · exact @InPrelude.intro _ _ t [] ts (by simp [IsRun]) (by simpa using hs) ho h

theorem not_inPrelude_nil : ¬InPrelude front n [] := by
  intro h
  generalize hx : [] = xs at h
  cases h
  simp at hx

theorem inAtPrelude_cons_iff : InAtPrelude name n (t :: ts) ↔
    t.token.staysIn ∧ InAtPrelude name n ts ∨ AtRuleEnds name n (t :: ts) := by
  constructor
  · intro h
    generalize hx : t :: ts = xs at h
    obtain @⟨run, us, hr, h⟩ := h
    cases run
    case nil =>
      subst hx
      exact .inr h
    case cons u run =>
      obtain ⟨rfl, rfl⟩ := List.cons.inj hx
      obtain ⟨ht, hr⟩ := isRun_cons.mp hr
      exact .inl ⟨ht, .intro hr h⟩
  · rintro (⟨ht, @⟨run, us, hr, h⟩⟩ | h)
    · exact @InAtPrelude.intro _ _ (t :: run) us (isRun_cons.mpr ⟨ht, hr⟩) h
    · exact @InAtPrelude.intro _ _ [] (t :: ts) (by simp [IsRun]) h

theorem atRuleEnds_nil_iff : AtRuleEnds name n [] ↔ n = 0 := by
  constructor
  · intro h
    cases h
    case unended h =>
      cases h
      rfl
  · rintro rfl
    exact .unended .text

theorem inAtPrelude_nil_iff : InAtPrelude name n [] ↔ n = 0 := by
  rw [← @atRuleEnds_nil_iff n name]
  constructor
  · intro h
    generalize hx : [] = xs at h
    obtain @⟨run, us, -, h⟩ := h
    obtain ⟨rfl, rfl⟩ := List.append_eq_nil_iff.mp hx.symm
    exact h
  · exact fun h => @InAtPrelude.intro _ _ [] [] (by simp [IsRun]) h

theorem atRuleEnds_cons_iff : AtRuleEnds name n (t :: ts) ↔
    t.token = .semicolon ∧ Levels n ts ∨ Closes n (t :: ts) ∨
      t.token = .openBrace ∧
        if holdsDeclarations name then Braced IsRules n ts else Levels (n + 1) ts := by
  constructor
  · intro h
    cases h
    case semicolon ht h => exact .inl ⟨ht, h⟩
    case unended h => exact .inr (.inl h)
    case atSet hh ht h => exact .inr (.inr ⟨ht, by rwa [if_pos hh]⟩)
    case atBlock hh ht h => exact .inr (.inr ⟨ht, by rwa [if_neg (by simp [hh])]⟩)
  · rintro (⟨ht, h⟩ | h | ⟨ht, h⟩)
    · exact .semicolon ht h
    · exact .unended h
    · split at h
      case isTrue hh => exact .atSet hh ht h
      case isFalse hh => exact .atBlock (Bool.eq_false_iff.mpr hh) ht h

-- How the first token tells what a sheet begins with, whatever is behind it.
theorem isSheet_cons (h : IsSheet (t :: us)) {vs : List Placed} (hc : Closes n vs) :
    t.token = .whitespace ∧ IsSheet us ∨
      (∃ name, t.token = .atKeyword name ∧ InAtPrelude (Text.lower name) n (us ++ vs)) ∨
      (t.token ≠ .whitespace ∧ ∀ name, t.token ≠ .atKeyword name) ∧
        InPrelude [] n (t :: (us ++ vs)) := by
  generalize hx : t :: us = xs at h
  cases h
  case nil => cases hx
  case blank ht h =>
    cases hx
    exact .inl ⟨ht, h⟩
  case block opener closer prelude rules ts hp ho hi hcloser h =>
    have hrest : InPrelude [] n (prelude ++ opener :: (rules ++ closer :: (ts ++ vs))) :=
      .intro hp.isRun hp.areSelectors ho (.intro hi hcloser (.intro h hc))
    have hstart : t.token ≠ .whitespace ∧ ∀ name, t.token ≠ .atKeyword name := by
      cases prelude
      case nil =>
        obtain ⟨rfl, -⟩ := List.cons.inj hx
        simp [ho]
      case cons =>
        obtain ⟨rfl, -⟩ := List.cons.inj hx
        exact hp.starts _ rfl
    refine .inr (.inr ⟨hstart, ?_⟩)
    rw [← List.cons_append, hx]
    simpa using hrest
  case statement semicolon name run ts hn hr hs h =>
    cases hx
    rw [List.append_assoc]
    exact .inr (.inl ⟨name, hn, .intro hr (.semicolon hs (.intro h hc))⟩)
  case unended hn hr =>
    cases hx
    exact .inr (.inl ⟨_, hn, .intro hr (.unended hc)⟩)
  case atSet opener closer name run rules ts hn hh hr ho hi hcloser h =>
    cases hx
    have : InAtPrelude (Text.lower name) n (run ++ opener :: (rules ++ closer :: (ts ++ vs))) :=
      .intro hr (.atSet hh ho (.intro hi hcloser (.intro h hc)))
    exact .inr (.inl ⟨name, hn, by simpa using this⟩)
  case atBlock opener closer name run contents ts hn hh hr ho hi hcloser h =>
    cases hx
    have : InAtPrelude (Text.lower name) n (run ++ opener :: (contents ++ closer :: (ts ++ vs))) :=
      .intro hr (.atBlock hh ho (.intro hi (.closer hcloser (.intro h hc))))
    exact .inr (.inl ⟨name, hn, by simpa using this⟩)

theorem levels_blank (ht : t.token = .whitespace) : Levels n (t :: ts) ↔ Levels n ts := by
  constructor
  · intro h
    rcases levels_cons_iff.mp h with h | ⟨us, vs, rfl, hs, hc⟩
    · simp [closes_cons_iff, ht] at h
    · rcases isSheet_cons hs hc with ⟨_, h⟩ | ⟨_, hn, _⟩ | ⟨⟨hn, _⟩, _⟩
      · exact .intro h hc
      · simp [ht] at hn
      · exact absurd ht hn
  · rintro ⟨hs, hc⟩
    exact .intro (.blank ht hs) hc

theorem levels_atKeyword (ht : t.token = .atKeyword name) :
    Levels n (t :: ts) ↔ InAtPrelude (Text.lower name) n ts := by
  constructor
  · intro h
    rcases levels_cons_iff.mp h with h | ⟨us, vs, rfl, hs, hc⟩
    · simp [closes_cons_iff, ht] at h
    · rcases isSheet_cons hs hc with ⟨hn, _⟩ | ⟨_, hn, h⟩ | ⟨⟨_, hn⟩, _⟩
      · simp [ht] at hn
      · cases ht.symm.trans hn
        exact h
      · exact absurd ht (hn _)
  · rintro ⟨hr, h⟩
    cases h
    case semicolon hs h =>
      obtain ⟨hsheet, hc⟩ := h
      have := Levels.intro (.statement ht hr hs hsheet) hc
      simpa using this
    case unended hc => exact .intro (.unended ht hr) hc
    case atSet hh ho h =>
      obtain ⟨hi, hcloser, hsheet, hc⟩ := h
      have := Levels.intro (.atSet ht hh hr ho hi hcloser hsheet) hc
      simpa using this
    case atBlock hh ho h =>
      obtain ⟨hi, hcloses⟩ := h
      obtain _ | ⟨hcloser, hsheet, hc⟩ := hcloses
      have := Levels.intro (.atBlock ht hh hr ho hi hcloser hsheet) hc
      simpa using this

-- Any other token but an end begins a block.
theorem levels_block (hb : t.token ≠ .whitespace) (ha : ∀ name, t.token ≠ .atKeyword name) :
    Levels n (t :: ts) ↔ Closes n (t :: ts) ∨ InPrelude [] n (t :: ts) := by
  constructor
  · intro h
    rcases levels_cons_iff.mp h with h | ⟨us, vs, rfl, hs, hc⟩
    · exact .inl h
    · rcases isSheet_cons hs hc with ⟨ht, _⟩ | ⟨_, hn, _⟩ | ⟨_, h⟩
      · exact absurd ht hb
      · exact absurd hn (ha _)
      · exact .inr h
  · rintro (h | h)
    · exact .intro .nil h
    · generalize hx : t :: ts = xs at h
      obtain @⟨opener, run, us, hr, hs, ho, h⟩ := h
      obtain ⟨hi, hcloser, hsheet, hc⟩ := h
      have hp : IsPrelude run := by
        refine ⟨hr, fun u hu => ?_, hs⟩
        cases run
        case nil => cases hu
        case cons =>
          cases hu
          obtain ⟨rfl, -⟩ := List.cons.inj hx
          exact ⟨hb, ha⟩
      have := Levels.intro (.block hp ho hi hcloser hsheet) hc
      simpa using this

end Grammar

/-! ### Values -/

namespace Value

-- Where a run ends is only said of what is wrong with it.
theorem splitAtCommas_of_ok {p : Position} {part : List Part} {items : List Item}
    {parts : List (List Part)} (h : splitAtCommas p part items = .ok parts) (q : Position) :
    splitAtCommas q part items = .ok parts := by
  induction items generalizing part p q
  case nil =>
    rw [splitAtCommas] at h ⊢
    split at h
    case isTrue => cases h
    case isFalse he => rwa [if_neg he]
  case cons item items ih =>
    cases item
    case part => exact ih h q
    case comma => exact h

theorem ofTokens_of_ok {tokens : List Placed} {p : Position} {v : Value}
    (h : ofTokens tokens p = .ok v) (q : Position) : ofTokens tokens q = .ok v := by
  rw [ofTokens] at h ⊢
  split at h
  case isTrue => cases h
  case isFalse he =>
    rw [if_neg he]
    cases hi : nestedItems (Nested.ofRun [] [] tokens)
    case error => simp [hi, bind, Except.bind] at h
    case ok items =>
      simp only [hi, bind, Except.bind, ofItems] at h ⊢
      cases hs : splitAtCommas p [] items
      case error => simp [hs] at h
      case ok parts =>
        rw [splitAtCommas_of_ok hs q]
        rwa [hs] at h

end Value

namespace Grammar

theorem isValue_iff {run : List Placed} (name : String) (position finish : Position) :
    IsValue run ↔ ∃ d, Declaration.ofTokens name position run finish = .ok d := by
  simp only [Declaration.ofTokens, IsValue]
  by_cases hb : (splitImportant run).2.all (·.token.isWhitespace)
  case pos => simp [hb]
  case neg =>
    simp only [hb]
    constructor
    · rintro ⟨-, p, v, h⟩
      exact ⟨_, by simp [Value.ofTokens_of_ok h finish, Except.map]; rfl⟩
    · rintro ⟨d, h⟩
      cases hv : Value.ofTokens (splitImportant run).2 finish
      case error => simp [hv, Except.map] at h
      case ok v => exact ⟨by simp, finish, v, hv⟩

end Grammar
end Stylesheet
