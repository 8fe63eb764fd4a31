import Stylesheet.Proofs.Sheet.Bodies
/-!
Nodes that are read back from their text. The preludes of blocks and at-rules are kept as text, so
that what is asked of them is that the lexer takes them off alone, up to the brace or the semicolon
behind them. Main statements: `Node.readsTo_write`, `Sheet.parse_write`.
-/

namespace Stylesheet

open Lexing

variable {f : Format} {l : Layout} {rest cs ds : List Char} {ts : List Placed}
  {sets sets' : List (List Declaration)}

/-! ### Braces -/

-- The tokens behind an opening brace.
def bracedTokens (f : Format) (isEmpty : Bool) (inner : List Token) : List Token :=
  (if isEmpty then [] else
    blankTokens f.beforeRules.toList ++ (inner ++ blankTokens f.afterRules.toList)) ++ [.closeBrace]

-- The text behind an opening brace.
def bracedText (l : Layout) (isEmpty : Bool) (inner : List Char) : List Char :=
  (if isEmpty then [] else
    l.deeper.spread l.format.beforeRules.toList ++
      (inner ++ l.spread l.format.afterRules.toList)) ++ ['}']

theorem toList_writeBody (isEmpty : Bool) (body : String) :
    (Node.writeBody l isEmpty body).toList = l.spread l.format.beforeBrace.toList ++
      '{' :: bracedText l isEmpty body.toList := by
  cases isEmpty <;> simp [Node.writeBody, bracedText, Layout.toList_space, Layout.deeper]

theorem lexes_bracedText (hf : l.format.IsReadable) {isEmpty : Bool} {inner : List Char}
    {us : List Token} (h : isEmpty = false → ∃ t us', us = t :: us' ∧ t ≠ .whitespace ∧
      ∀ rest, Stops rest → Lexes (inner ++ rest) us rest) :
    Lexes (bracedText l isEmpty inner ++ rest) (bracedTokens l.format isEmpty us) rest := by
  have hclose : Lexes ('}' :: rest) [.closeBrace] rest := lexes_punctuation (by decide)
  cases isEmpty
  case true => exact hclose
  case false =>
    obtain ⟨t, us', hus, ht, hlex⟩ := h rfl
    have hg : startsGap ('}' :: rest) = false := startsGap_cons (by decide) (by decide)
    have hstop : Stops ('}' :: rest) := Value.stops_cons (by decide)
    have hafter := Layout.lexes_spread hf hf.afterRules hg hclose
    have hinner := (hlex _ (Layout.stops_spread hf hf.afterRules (.inr hstop))).append hafter
    have hbefore := @Layout.lexes_spread l.deeper _ _ _ _ hf hf.beforeRules
      ((hus ▸ hinner).startsGap ht) hinner
    simpa [bracedText, bracedTokens] using hbefore

theorem isUnified_bracedText (hf : l.format.IsReadable) {isEmpty : Bool} {inner : List Char}
    (h : Text.isUnified inner) : Text.isUnified (bracedText l isEmpty inner) := by
  rw [bracedText, Text.isUnified_append]
  refine ⟨?_, by decide⟩
  split
  case isTrue => rfl
  case isFalse =>
    rw [Text.isUnified_append, Text.isUnified_append]
    exact ⟨@Value.isUnified_spread l.deeper _ hf hf.beforeRules, h,
      Value.isUnified_spread hf hf.afterRules⟩

/-! ### Preludes -/

-- A prelude that is taken off whole in front of what ends it.
structure ClosesAs (cs : List Char) (stop : Char) (ts : List Token) : Prop where
  lexes : ∀ rest, Lexes (cs ++ stop :: rest) ts (stop :: rest)
  isUnified : Text.isUnified cs
  staysIn : ∀ t ∈ ts, t.staysIn

-- Selectors whose text is read to selectors in front of the brace of their block.
def SelectorsReadAs (l : Layout) (selectors again : List Selector) : Prop :=
  ∃ t ts, ClosesAs ((Node.writeSelectors l selectors).toList ++
      l.spread l.format.beforeBrace.toList) '{' (t :: ts) ∧
    t ≠ .whitespace ∧ (∀ name, t ≠ .atKeyword name) ∧
    Selector.listOfText (Reader.preludeText (t :: ts)) = .ok again

-- An at-rule that is read again in front of its brace or semicolon.
def AtRuleCloses (name arguments : String) (spacing : List Char) (stop : Char) : Prop :=
  ∃ ts, ClosesAs ((Node.writeAtRule name arguments).toList ++ spacing) stop (.atKeyword name :: ts)

namespace Node

mutual

-- Whether a node is read back, given that it is one that could be read.
def IsClean (l : Layout) : Node Declaration → Prop
  | block b => (∃ again, SelectorsReadAs l b.selectors again) ∧ ∀ d ∈ b.rules, d.isClean
  | atSet name arguments rules =>
    AtRuleCloses name arguments (l.spread l.format.beforeBrace.toList) '{' ∧
      ∀ d ∈ rules, d.isClean
  | atBlock name arguments contents =>
    AtRuleCloses name arguments (l.spread l.format.beforeBrace.toList) '{' ∧
      AreClean l.deeper contents
  | atStatement name arguments => AtRuleCloses name arguments [] ';'

def AreClean (l : Layout) : List (Node Declaration) → Prop
  | [] => True
  | n :: ns => n.IsClean l ∧ AreClean l ns

end

mutual

-- What a node is like that was read.
def IsShaped : Node Declaration → Prop
  | block b => ∀ d ∈ b.rules, d.IsShaped
  | atSet name _ rules =>
    Text.lower name = name ∧ holdsDeclarations name ∧ ∀ d ∈ rules, d.IsShaped
  | atBlock name _ contents =>
    Text.lower name = name ∧ holdsDeclarations name = false ∧ AreShaped contents
  | atStatement name _ => Text.lower name = name

def AreShaped : List (Node Declaration) → Prop
  | [] => True
  | n :: ns => n.IsShaped ∧ AreShaped ns

end

end Node

theorem Node.ruleSetsAll_append {α : Type} (ns ms : List (Node α)) :
    Node.ruleSetsAll (ns ++ ms) = Node.ruleSetsAll ns ++ Node.ruleSetsAll ms := by
  induction ns
  case nil => rfl
  case cons n ns ih => simp [Node.ruleSetsAll, ih]

/-! ### Reading -/

namespace Reader

-- The reader behind more nodes.
def grow (r : Reader) (ns : Sheet Declaration) : Reader :=
  { r with nodes := r.nodes ++ ns, focus := .between }

theorem grow_grow (r : Reader) (ns ms : Sheet Declaration) :
    (r.grow ns).grow ms = r.grow (ns ++ ms) := by
  simp [grow]

end Reader

-- A text that nodes are read from.
structure ReadsTo (cs : List Char) (P : Sheet Declaration → Prop) : Prop where
  isUnified : Text.isUnified cs
  reads : ∃ t ts, t ≠ .whitespace ∧ (∀ rest, Lexes (cs ++ rest) (t :: ts) rest) ∧
    ∀ (placed : List Placed) (r : Reader), placed.map Placed.token = t :: ts →
      r.focus = .between → ∃ ns, r.Reaches placed (r.grow ns) ∧ P ns

-- Rule sets that agree one by one.
def SameSets : List (List Declaration) → List (List Declaration) → Prop :=
  List.Forall₂ fun ds es => Declaration.sameAll ds es

-- Nodes with rule sets as the format has them.
def HaveSets (f : Format) (sets : List (List Declaration)) (ns : Sheet Declaration) : Prop :=
  SameSets (sets.map fun ds => ds.map (·.shorten f)) ns.ruleSets

namespace Reader

variable {r : Reader} {t opener : Placed}

theorem reaches_selector {start : Position} (front : List Token)
    (h : ∀ t ∈ ts, t.token.staysIn) :
    Reaches (r.look (.selector start front false)) ts
      (r.look (.selector start (front ++ ts.map Placed.token) false)) := by
  induction ts generalizing front
  case nil => simpa using Reaches.nil
  case cons t ts ih =>
    obtain ⟨ht, hts⟩ := List.forall_mem_cons.mp h
    have hstep : (r.look (.selector start front false)).step t =
        (r.look (.selector start (front ++ [t.token]) false), []) := by
      simp only [step, look, selectorStep]
      split
      case h_1 he | h_2 he | h_3 he =>
        rw [he] at ht
        cases ht
      case h_4 => rfl
    have := ih (front ++ [t.token]) hts
    rw [List.append_assoc] at this
    exact .cons hstep this

theorem reaches_atPrelude {name : String} (front : List Token) (h : ∀ t ∈ ts, t.token.staysIn) :
    Reaches (r.look (.atPrelude name front false)) ts
      (r.look (.atPrelude name (front ++ ts.map Placed.token) false)) := by
  induction ts generalizing front
  case nil => simpa using Reaches.nil
  case cons t ts ih =>
    obtain ⟨ht, hts⟩ := List.forall_mem_cons.mp h
    have hstep : (r.look (.atPrelude name front false)).step t =
        (r.look (.atPrelude name (front ++ [t.token]) false), []) := by
      simp only [step, look]
      split
      case h_1 he | h_2 he | h_3 he =>
        rw [he] at ht
        cases ht
      case h_4 => rfl
    have := ih (front ++ [t.token]) hts
    rw [List.append_assoc] at this
    exact .cons hstep this

-- The prelude of a block and the brace behind it.
theorem reaches_block {prelude : List Token} {again : List Selector} (hr : r.focus = .between)
    (ht : (t :: ts).map Placed.token = prelude) (hp : ∀ t ∈ prelude, t.staysIn)
    (hb : t.token ≠ .whitespace) (ha : ∀ name, t.token ≠ .atKeyword name)
    (hs : Selector.listOfText (preludeText prelude) = .ok again) (ho : opener.token = .openBrace) :
    Reaches r (t :: (ts ++ [opener])) (r.inside (.block again t.position.line) {}) := by
  subst ht
  rw [List.map_cons, List.forall_mem_cons] at hp
  have hfirst : r.step t = (r.look (.selector t.position [t.token] false), []) := by
    have hstays := hp.1
    simp only [step, hr]
    split
    case h_1 he => exact absurd he hb
    case h_2 he | h_3 he =>
      rw [he] at hstays
      cases hstays
    case h_4 name he => exact absurd he (ha name)
    case h_5 =>
      simp only [selectorStep]
      split
      case h_1 he | h_2 he | h_3 he =>
        rw [he] at hstays
        cases hstays
      case h_4 => rfl
  have hrest := @reaches_selector ts r t.position [t.token] fun u hu =>
    hp.2 u.token (List.mem_map_of_mem hu)
  have hopen : (r.look (.selector t.position (t.token :: ts.map Placed.token) false)).step opener =
      (r.inside (.block again t.position.line) {}, []) := by
    simp only [List.map_cons] at hs
    simp [step, look, selectorStep, ho, openBlock, hs, inside]
  exact .cons hfirst (hrest.append (.single hopen))

-- The name and the prelude of an at-rule.
theorem reaches_atRule {name : String} {prelude : List Token} (hr : r.focus = .between)
    (ht : t.token = .atKeyword name) (hts : ts.map Placed.token = prelude)
    (hp : ∀ t ∈ prelude, t.staysIn) (hn : Text.lower name = name) :
    Reaches r (t :: ts) (r.look (.atPrelude name prelude false)) := by
  have hfirst : r.step t = (r.look (.atPrelude name [] false), []) := by
    simp [step, hr, ht, hn]
  subst hts
  exact .cons hfirst (@reaches_atPrelude ts r name [] fun u hu =>
    hp u.token (List.mem_map_of_mem hu))

-- The declarations in a pair of braces.
theorem reaches_rules {owner : Owner} {rules : List Declaration} (h : ∀ d ∈ rules, d.IsReadable)
    (ht : ts.map Placed.token =
      bracedTokens f rules.isEmpty (Declaration.allTokens f rules)) :
    ∃ es, Declaration.sameAll (rules.map (·.shorten f)) es ∧
      Reaches (r.inside owner {}) ts (r.append (owner.node es)) := by
  rw [bracedTokens, List.map_eq_append_iff] at ht
  obtain ⟨inner, closers, hts, hinner, hclose⟩ := ht
  rw [List.map_eq_singleton_iff] at hclose
  obtain ⟨closer, hclosers, hcloser⟩ := hclose
  subst hts hclosers
  split at hinner
  case isTrue he =>
    obtain ⟨es, hes, hreach⟩ := @reaches_declarations f [] r owner [] rules closer [] h
      (by rw [List.isEmpty_iff.mp he]; rfl) (List.forall_mem_nil _) hcloser
    rw [List.map_eq_nil_iff.mp hinner]
    exact ⟨es, hes, hreach⟩
  case isFalse =>
    rw [List.map_eq_append_iff] at hinner
    obtain ⟨before, us, hinner, hbefore, hus⟩ := hinner
    rw [List.map_eq_append_iff] at hus
    obtain ⟨vs, after, hus, hvs, hafter⟩ := hus
    subst hinner hus
    obtain ⟨es, hes, hreach⟩ := @reaches_declarations f vs r owner [] rules closer after h hvs
      (Value.forall_of_blankTokens after hafter) hcloser
    have hbefore := @reaches_blanks _ r owner [] (Value.forall_of_blankTokens before hbefore)
    refine ⟨es, hes, ?_⟩
    simpa using hbefore.append hreach

-- White space between nodes.
theorem reaches_gap (hr : r.focus = .between) (h : ∀ t ∈ ts, t.token = .whitespace) :
    Reaches r ts r := by
  induction ts
  case nil => exact .nil
  case cons t ts ih =>
    obtain ⟨ht, hts⟩ := List.forall_mem_cons.mp h
    exact .cons (by simp [step, hr, ht]) (ih hts)

end Reader

-- The text of one node after the other.
theorem ReadsTo.append (hf : l.format.IsReadable) {spacing : List Char} (hs : isSpacing spacing)
    (h₁ : ReadsTo cs (HaveSets f sets)) (h₂ : ReadsTo ds (HaveSets f sets')) :
    ReadsTo (cs ++ (l.spread spacing ++ ds)) (HaveSets f (sets ++ sets')) := by
  obtain ⟨t, ts, ht, hlex, hread⟩ := h₁.reads
  obtain ⟨u, us, hu, hlex', hread'⟩ := h₂.reads
  refine ⟨?_, t, ts ++ (blankTokens spacing ++ u :: us), ht, fun rest => ?_, fun placed r hp hr => ?_⟩
  · rw [Text.isUnified_append, Text.isUnified_append]
    exact ⟨h₁.isUnified, Value.isUnified_spread hf hs, h₂.isUnified⟩
  · have hspace := Layout.lexes_spread hf hs ((hlex' rest).startsGap hu) (hlex' rest)
    simpa using (hlex _).append hspace
  · rw [← List.cons_append, List.map_eq_append_iff] at hp
    obtain ⟨front, more, hp, hfront, hmore⟩ := hp
    rw [List.map_eq_append_iff] at hmore
    obtain ⟨blanks, back, hmore, hblanks, hback⟩ := hmore
    subst hp hmore
    obtain ⟨ns, hns, hsets⟩ := hread front r hfront hr
    obtain ⟨ms, hms, hsets'⟩ := hread' back (r.grow ns) hback rfl
    have hgap := @Reader.reaches_gap blanks (r.grow ns) rfl
      (Value.forall_of_blankTokens blanks hblanks)
    refine ⟨ns ++ ms, ?_, ?_⟩
    · rw [← Reader.grow_grow]
      exact hns.append (hgap.append hms)
    · rw [HaveSets, List.map_append, Sheet.ruleSets, Node.ruleSetsAll_append]
      exact List.rel_append hsets hsets'

theorem ReadsTo.imp {P Q : Sheet Declaration → Prop} (h : ReadsTo cs P) (hi : ∀ ns, P ns → Q ns) :
    ReadsTo cs Q := by
  obtain ⟨t, ts, ht, hlex, hread⟩ := h.reads
  refine ⟨h.isUnified, t, ts, ht, hlex, fun placed r hp hr => ?_⟩
  obtain ⟨ns, hns, hP⟩ := hread placed r hp hr
  exact ⟨ns, hns, hi ns hP⟩

theorem lexes_openBrace {us : List Token} (h : Lexes cs us rest) :
    Lexes ('{' :: cs) (.openBrace :: us) rest :=
  (lexes_punctuation (c := '{') (by decide)).append h

theorem lexes_rules (hf : l.format.IsReadable) {rules : List Declaration}
    (h : ∀ d ∈ rules, d.IsReadable) :
    Lexes ('{' :: (bracedText l rules.isEmpty (Declaration.writeAll l.deeper rules).toList ++ rest))
      (.openBrace :: bracedTokens l.format rules.isEmpty (Declaration.allTokens l.format rules))
      rest := by
  refine lexes_openBrace (lexes_bracedText hf fun hn => ?_)
  obtain ⟨name, ts, ht⟩ := Declaration.allTokens_head (f := l.format) (List.isEmpty_eq_false_iff.mp hn)
  exact ⟨_, ts, ht, by simp, fun rest hr => @Declaration.lexes_writeAll l.deeper rest hf rules h hr⟩

theorem isUnified_rules (hf : l.format.IsReadable) {rules : List Declaration}
    (h : ∀ d ∈ rules, d.IsReadable) : Text.isUnified
      ('{' :: bracedText l rules.isEmpty (Declaration.writeAll l.deeper rules).toList) :=
  Text.isUnified_cons.mpr ⟨by decide,
    isUnified_bracedText hf (@Declaration.isUnified_writeAll l.deeper hf rules h)⟩

namespace Node

-- A block is read back with the selectors that are read from its prelude.
theorem readsTo_block (hf : l.format.IsReadable) {b : Block Declaration} {again : List Selector}
    (hs : SelectorsReadAs l b.selectors again) (hd : ∀ d ∈ b.rules, d.IsReadable) :
    ReadsTo ((block b).write l).toList fun ns => ∃ rules line,
      ns = [.block ⟨again, rules, line⟩] ∧
        Declaration.sameAll (b.rules.map (·.shorten l.format)) rules := by
  obtain ⟨t, ts, hclose, ht, ha, hsel⟩ := hs
  have htext : ((block b).write l).toList = (writeSelectors l b.selectors).toList ++
      l.spread l.format.beforeBrace.toList ++
        '{' :: bracedText l b.rules.isEmpty (Declaration.writeAll l.deeper b.rules).toList := by
    rw [write, String.toList_append, toList_writeBody, List.append_assoc]
  rw [htext]
  refine ⟨Text.isUnified_append.mpr ⟨hclose.isUnified, isUnified_rules hf hd⟩, t,
    ts ++ .openBrace :: bracedTokens l.format b.rules.isEmpty
      (Declaration.allTokens l.format b.rules), ht, fun rest => ?_, fun placed r hp hr => ?_⟩
  · rw [List.append_assoc]
    exact (hclose.lexes _).append (lexes_rules hf hd)
  · rw [← List.cons_append, List.map_eq_append_iff] at hp
    obtain ⟨prelude, more, hp, hprelude, hmore⟩ := hp
    rw [List.map_eq_cons_iff] at hmore
    obtain ⟨opener, braced, hmore, hopen, hbraced⟩ := hmore
    subst hp hmore
    obtain ⟨first, others, hcons, hfirst, _⟩ := List.map_eq_cons_iff.mp hprelude
    subst hcons
    have hstart := Reader.reaches_block hr hprelude hclose.staysIn (hfirst ▸ ht)
      (fun name => hfirst ▸ ha name) hsel hopen
    obtain ⟨es, hes, hrules⟩ := @Reader.reaches_rules l.format braced r
      (.block again first.position.line) b.rules hd hbraced
    refine ⟨[.block ⟨again, es, first.position.line⟩], ?_, es, first.position.line, rfl, hes⟩
    rw [List.append_cons]
    exact hstart.append hrules

-- The prelude of an at-rule and what is behind it, from the brace or the semicolon on.
theorem readsTo_atRule {name arguments : String} {spacing behind : List Char} {stop : Char}
    {stopper : Token} {us : List Token} (hn : Text.lower name = name)
    (hc : AtRuleCloses name arguments spacing stop) (hu : Text.isUnified (stop :: behind))
    (hlex : ∀ rest, Lexes (stop :: (behind ++ rest)) (stopper :: us) rest)
    (hread : ∀ (prelude : List Token) (t : Placed) (placed : List Placed) (r : Reader),
      t.token = stopper → placed.map Placed.token = us → ∃ n,
        Reader.Reaches (r.look (.atPrelude name prelude false)) (t :: placed) (r.append n) ∧
          HaveSets f sets [n]) :
    ReadsTo ((writeAtRule name arguments).toList ++ spacing ++ stop :: behind)
      (HaveSets f sets) := by
  obtain ⟨ts, hclose⟩ := hc
  refine ⟨Text.isUnified_append.mpr ⟨hclose.isUnified, hu⟩, .atKeyword name, ts ++ stopper :: us,
    by simp, fun rest => ?_, fun placed r hp hr => ?_⟩
  · rw [List.append_assoc]
    exact (hclose.lexes _).append (hlex rest)
  · rw [List.map_eq_cons_iff] at hp
    obtain ⟨first, more, hp, hfirst, hmore⟩ := hp
    rw [List.map_eq_append_iff] at hmore
    obtain ⟨prelude, back, hmore, hprelude, hback⟩ := hmore
    rw [List.map_eq_cons_iff] at hback
    obtain ⟨t, behind, hback, ht, hbehind⟩ := hback
    subst hp hmore hback
    have hstart := Reader.reaches_atRule hr hfirst hprelude
      (fun t ht => hclose.staysIn t (List.mem_cons_of_mem _ ht)) hn
    obtain ⟨n, hreach, hsets⟩ := hread ts t behind r ht hbehind
    exact ⟨[n], hstart.append hreach, hsets⟩

theorem readsTo_atSet (hf : l.format.IsReadable) {name arguments : String}
    {rules : List Declaration} (hn : Text.lower name = name) (hh : holdsDeclarations name)
    (hc : AtRuleCloses name arguments (l.spread l.format.beforeBrace.toList) '{')
    (hd : ∀ d ∈ rules, d.IsReadable) :
    ReadsTo ((atSet name arguments rules).write l).toList (HaveSets l.format [rules]) := by
  rw [write, String.toList_append, toList_writeBody, ← List.append_assoc]
  refine readsTo_atRule hn hc (isUnified_rules hf hd) (fun rest => lexes_rules hf hd)
    fun prelude t placed r ht hp => ?_
  obtain ⟨es, hes, hrules⟩ := @Reader.reaches_rules l.format placed r
    (.atRule name (Reader.trimmedText prelude)) rules hd hp
  refine ⟨_, .cons ?_ hrules, .cons hes .nil⟩
  simp [Reader.step, Reader.look, ht, Reader.openAtRule, hh, Reader.inside]

theorem readsTo_atStatement {name arguments : String} (hn : Text.lower name = name)
    (hc : AtRuleCloses name arguments [] ';') :
    ReadsTo ((atStatement name arguments).write l).toList (HaveSets f []) := by
  have := @readsTo_atRule f [] name arguments [] [] ';' .semicolon [] hn hc (by decide)
    (fun rest => lexes_punctuation (by decide)) fun prelude t placed r ht hp => by
      rw [List.map_eq_nil_iff.mp hp]
      refine ⟨.atStatement name (Reader.trimmedText prelude), .single ?_, .nil⟩
      simp [Reader.step, Reader.look, ht, Reader.endStatement, Reader.append]
  simpa [write] using this

-- The brace of an at-rule opens it for the nodes in it.
theorem step_opens (prelude : List Token) (r : Reader) {name : String} {t : Placed}
    (hh : holdsDeclarations name = false) (ht : t.token = .openBrace) :
    (r.look (.atPrelude name prelude false)).step t =
      (⟨⟨name, Reader.trimmedText prelude, r.nodes⟩ :: r.frames, [], .between⟩, []) := by
  simp [Reader.step, Reader.look, ht, Reader.openAtRule, hh]

theorem step_closes (frame : Frame) (frames : List Frame) (ns : Sheet Declaration) {t : Placed}
    (ht : t.token = .closeBrace) : Reader.step ⟨frame :: frames, ns, .between⟩ t =
      (⟨frames, frame.before ++ [.atBlock frame.name frame.arguments ns], .between⟩, []) := by
  simp [Reader.step, ht, Reader.closeBrace, Reader.close]

theorem readsTo_atBlock_nil (hf : l.format.IsReadable) {name arguments : String}
    (hn : Text.lower name = name) (hh : holdsDeclarations name = false)
    (hc : AtRuleCloses name arguments (l.spread l.format.beforeBrace.toList) '{') :
    ReadsTo ((atBlock name arguments []).write l).toList (HaveSets l.format []) := by
  rw [write, String.toList_append, toList_writeBody, ← List.append_assoc]
  refine readsTo_atRule hn hc (Text.isUnified_cons.mpr ⟨by decide, rfl⟩)
    (fun rest => lexes_openBrace (@lexes_bracedText l rest hf true [] [] (by simp)))
    fun prelude t placed r ht hp => ?_
  rw [bracedTokens, if_pos rfl, List.nil_append, List.map_eq_singleton_iff] at hp
  obtain ⟨closer, hp, hcloser⟩ := hp
  subst hp
  exact ⟨.atBlock name (Reader.trimmedText prelude) [],
    .cons (step_opens prelude r hh ht) (.single (step_closes _ r.frames [] hcloser)), .nil⟩

theorem readsTo_atBlock (hf : l.format.IsReadable) {name arguments : String}
    {contents : List (Node Declaration)} (hn : Text.lower name = name)
    (hh : holdsDeclarations name = false)
    (hc : AtRuleCloses name arguments (l.spread l.format.beforeBrace.toList) '{')
    (hr : contents ≠ [] → ReadsTo
      (l.deeper.join l.format.betweenBlocks (writeAll l.deeper contents)).toList
      (HaveSets l.format (ruleSetsAll contents))) :
    ReadsTo ((atBlock name arguments contents).write l).toList
      (HaveSets l.format (ruleSetsAll contents)) := by
  by_cases he : contents = []
  case pos =>
    subst he
    exact readsTo_atBlock_nil hf hn hh hc
  case neg =>
    have hempty : contents.isEmpty = false := by simpa using he
    have hr := hr he
    obtain ⟨first, ts, hfirst, hlex, hread⟩ := hr.reads
    rw [write, String.toList_append, toList_writeBody, ← List.append_assoc, hempty]
    refine readsTo_atRule hn hc
      (Text.isUnified_cons.mpr ⟨by decide, isUnified_bracedText hf hr.isUnified⟩)
      (fun rest => lexes_openBrace (lexes_bracedText hf fun _ =>
        ⟨first, ts, rfl, hfirst, fun rest _ => hlex rest⟩))
      fun prelude t placed r ht hp => ?_
    rw [bracedTokens, if_neg (by decide), List.map_eq_append_iff] at hp
    obtain ⟨inner, closers, hp, hinner, hclose⟩ := hp
    rw [List.map_eq_singleton_iff] at hclose
    obtain ⟨closer, hclosers, hcloser⟩ := hclose
    rw [List.map_eq_append_iff] at hinner
    obtain ⟨before, us, hinner, hbefore, hus⟩ := hinner
    rw [List.map_eq_append_iff] at hus
    obtain ⟨vs, after, hus, hvs, hafter⟩ := hus
    subst hp hclosers hinner hus
    obtain ⟨ns, hns, hsets⟩ := hread vs
      ⟨⟨name, Reader.trimmedText prelude, r.nodes⟩ :: r.frames, [], .between⟩ hvs rfl
    have hbefore := Value.forall_of_blankTokens before hbefore
    have hafter := Value.forall_of_blankTokens after hafter
    refine ⟨.atBlock name (Reader.trimmedText prelude) ns, ?_, ?_⟩
    case refine_2 =>
      simpa [HaveSets, Sheet.ruleSets, ruleSetsAll, ruleSets] using hsets
    rw [List.append_assoc, List.append_assoc]
    exact .cons (step_opens prelude r hh ht) ((Reader.reaches_gap rfl hbefore).append (hns.append
      ((Reader.reaches_gap rfl hafter).append (.single (step_closes _ r.frames ns hcloser)))))

mutual

-- What is read from the text of a clean node.
theorem readsTo_write {l : Layout} (hf : l.format.IsReadable) (n : Node Declaration)
    (hs : n.IsShaped) (hc : n.IsClean l) :
    ReadsTo (n.write l).toList (HaveSets l.format n.ruleSets) := by
  match n with
  | block b =>
    rw [IsShaped] at hs
    rw [IsClean] at hc
    obtain ⟨⟨again, hagain⟩, hclean⟩ := hc
    refine (readsTo_block hf hagain fun d hd => ⟨hs d hd, hclean d hd⟩).imp ?_
    rintro _ ⟨rules, line, rfl, hrules⟩
    exact .cons hrules .nil
  | atSet name arguments rules =>
    rw [IsShaped] at hs
    rw [IsClean] at hc
    exact readsTo_atSet hf hs.1 hs.2.1 hc.1 fun d hd => ⟨hs.2.2 d hd, hc.2 d hd⟩
  | atBlock name arguments contents =>
    rw [IsShaped] at hs
    rw [IsClean] at hc
    exact readsTo_atBlock hf hs.1 hs.2.1 hc.1 fun hn =>
      @readsTo_writeAll l.deeper hf contents hn hs.2.2 hc.2
  | atStatement name arguments =>
    rw [IsShaped] at hs
    rw [IsClean] at hc
    exact readsTo_atStatement hs hc

theorem readsTo_writeAll {l : Layout} (hf : l.format.IsReadable) (ns : List (Node Declaration))
    (hn : ns ≠ []) (hs : AreShaped ns) (hc : AreClean l ns) :
    ReadsTo (l.join l.format.betweenBlocks (writeAll l ns)).toList
      (HaveSets l.format (ruleSetsAll ns)) := by
  match ns with
  | [] => contradiction
  | [n] =>
    rw [AreShaped] at hs
    rw [AreClean] at hc
    simpa [writeAll, Layout.join, ruleSetsAll] using readsTo_write hf n hs.1 hc.1
  | n :: m :: ns =>
    rw [AreShaped] at hs
    rw [AreClean] at hc
    rw [writeAll, Layout.toList_join_cons (by simp [writeAll])]
    exact (readsTo_write hf n hs.1 hc.1).append hf hf.betweenBlocks
      (readsTo_writeAll hf (m :: ns) (by simp) hs.2 hc.2)

end

end Node

/-! ### Sheets -/

namespace Sheet

-- A text is read to what its tokens are read to from the start.
theorem parse_of_readsTo {P : Sheet Declaration → Prop} {text : String}
    (h : ReadsTo text.toList P) {settings : Settings} (hm : settings.multibyte) :
    ∃ sheet, parse settings text = .ok ⟨sheet, []⟩ ∧ P sheet := by
  obtain ⟨t, ts, _, hlex, hread⟩ := h.reads
  have htext := hlex []
  rw [List.append_nil] at htext
  obtain ⟨placed, finish, hlexed, htokens⟩ := htext.lex .start
  obtain ⟨ns, hns, hP⟩ := hread placed {} htokens rfl
  refine ⟨ns, ?_, hP⟩
  have hrun := hns settings [] []
  rw [List.append_nil] at hrun
  rw [parse, hm, Cursor.ofText, Text.unifyLineEnds_of_isUnified h.isUnified, hlexed]
  simp [ofLexed, hrun, Reader.run, Reader.endOfText, Reader.grow, Reader.closeAll, Settings.report,
    bind, Except.bind, pure, Except.pure]

-- The text of a clean sheet is read, without a fault, to a sheet with the same rule sets.
theorem parse_write (hf : l.format.IsReadable) (sheet : Sheet Declaration)
    (hs : Node.AreShaped sheet) (hc : Node.AreClean l sheet) {settings : Settings}
    (hm : settings.multibyte) : ∃ again, parse settings (sheet.write l) = .ok ⟨again, []⟩ ∧
      HaveSets l.format sheet.ruleSets again := by
  by_cases he : sheet = []
  case pos =>
    subst he
    have hlexed : (Cursor.ofText (write l [])).lex true = ([], .start) :=
      @Cursor.lex_of_scan_none true ⟨[], .start⟩ ⟨[], .start⟩ rfl
    refine ⟨[], ?_, .nil⟩
    rw [parse, hm, hlexed]
    rfl
  case neg => exact parse_of_readsTo (Node.readsTo_writeAll hf sheet he hs hc) hm

end Sheet
end Stylesheet
