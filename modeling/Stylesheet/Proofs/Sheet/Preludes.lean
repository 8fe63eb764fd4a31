import Mathlib
import Stylesheet.Proofs.Sheet.Acceptance
import Stylesheet.Proofs.Token.Rejoined
/-!
The preludes of at-rules, which are kept as text. Reading a text without a fault, a reader finds the
at-rules where keywords begin statements (`Reader.atRules_readAll`), and what it keeps of a prelude
is read as the tokens of the prelude. Main statement: `Sheet.parse_preludes`.
-/

namespace Stylesheet

-- The keyword of an at-rule, and what is behind it up to the braces or the end.
structure AtRule (α : Type) where
  name : String
  prelude : α

namespace AtRule

variable {α β : Type}

def map (f : α → β) (r : AtRule α) : AtRule β :=
  ⟨r.name, f r.prelude⟩

-- The at-rules in a run of tokens, which may be more than tokens. They begin where a statement does.
def find (token : α → Token) (starts : Bool) : List α → List (AtRule (List α))
  | [] => []
  | a :: as =>
    let rules := find token (starts && (token a).isWhitespace || !(token a).staysIn) as
    match starts, token a with
    | true, .atKeyword name => ⟨name, as.takeWhile fun a => (token a).staysIn⟩ :: rules
    | _, _ => rules

variable {token : α → Token} {a : α} {as : List α} {starts : Bool}

theorem find_cons_whitespace (h : token a = .whitespace) :
    find token starts (a :: as) = find token starts as := by
  cases starts <;> simp [find, h, Token.isWhitespace, Token.staysIn]

-- No other token begins an at-rule, wherever it is.
theorem find_cons (hk : ∀ name, token a ≠ .atKeyword name) (hw : token a ≠ .whitespace) :
    find token starts (a :: as) = find token (!(token a).staysIn) as := by
  cases starts
  case false => rfl
  case true =>
    have hw : (token a).isWhitespace = false := by
      cases h : token a <;> first | rfl | exact absurd h hw
    simp only [find, hw, Bool.and_false, Bool.false_or]
    split
    case h_1 name _ h => exact absurd h (hk name)
    case h_2 => rfl

theorem find_map (f : β → α) (starts : Bool) (bs : List β) :
    find token starts (bs.map f) = (find (token ∘ f) starts bs).map (map (List.map f)) := by
  induction bs generalizing starts
  case nil => rfl
  case cons b bs ih =>
    simp only [List.map_cons, find, ih, Function.comp]
    split <;> simp [map, List.takeWhile_map, Function.comp_def]

end AtRule

/-! ### The at-rules of a style sheet -/

namespace Node

mutual

-- The at-rules in a node, each in front of those in its braces, with their preludes as text.
def atRules {α : Type} : Node α → List (AtRule String)
  | block _ => []
  | atSet name arguments _ | atStatement name arguments => [⟨name, arguments⟩]
  | atBlock name arguments contents => ⟨name, arguments⟩ :: atRulesAll contents

def atRulesAll {α : Type} : List (Node α) → List (AtRule String)
  | [] => []
  | n :: ns => n.atRules ++ atRulesAll ns

end

theorem atRulesAll_append {α : Type} (ns ms : List (Node α)) :
    atRulesAll (ns ++ ms) = atRulesAll ns ++ atRulesAll ms := by
  induction ns
  case nil => rfl
  case cons n ns ih => rw [List.cons_append, atRulesAll, ih, atRulesAll, List.append_assoc]

end Node

def Sheet.atRules {α : Type} (ns : Sheet α) : List (AtRule String) :=
  Node.atRulesAll ns

theorem Sheet.atRules_append_singleton {α : Type} (ns : Sheet α) (n : Node α) :
    atRules (ns ++ [n]) = ns.atRules ++ n.atRules := by
  simp [atRules, Node.atRulesAll_append, Node.atRulesAll]

def Owner.atRules : Owner → List (AtRule String)
  | block .. => []
  | atRule name arguments => [⟨name, arguments⟩]

theorem Owner.atRules_node (owner : Owner) (rules : List Declaration) :
    (owner.node rules).atRules = owner.atRules := by
  cases owner <;> simp [node, atRules, Node.atRules]

-- Whether a declaration may begin.
def Clause.starts : Clause → Bool
  | .between => true
  | _ => false

-- A sound body has no at-rule.
theorem Body.find_step {b : Body} {t : Placed} {ts : List Token} (hs : b.clause.isSound)
    (hf : (b.step t).faults = []) : AtRule.find id b.clause.starts (t.token :: ts) =
      AtRule.find id ((b.step t).closed || (b.step t).body.clause.starts) ts := by
  obtain ⟨done, clause⟩ := b
  obtain ⟨token, position⟩ := t
  cases clause
  case between =>
    cases token
    case whitespace => exact AtRule.find_cons_whitespace rfl
    all_goals
      simp_all [step, goOn, skip, Clause.starts, AtRule.find, Token.isWhitespace, Token.staysIn]
  case afterName =>
    cases token <;> simp_all [step, goOn, skip, Clause.starts, AtRule.find, Token.staysIn]
  case value =>
    cases token <;>
      simp_all [step, goOn, skip, clause_endValue, Clause.starts, AtRule.find, Token.staysIn]
  case skipping => cases hs
  case skippingBlock => cases hs

namespace Reader

-- The at-rule that is kept for a keyword and a prelude.
def written (r : AtRule (List Token)) : AtRule String :=
  ⟨Text.lower r.name, trimmedText r.prelude⟩

-- Those that are kept for a run of tokens.
def writtenIn (starts : Bool) (ts : List Token) : List (AtRule String) :=
  (AtRule.find id starts ts).map written

-- The at-rules of the levels around the innermost.
def around : List Frame → List (AtRule String)
  | [] => []
  | frame :: frames => around frames ++ (frame.before.atRules ++ [⟨frame.name, frame.arguments⟩])

-- The at-rules that are completed from what is being read and the rest of a text.
def coming : Focus → List Token → List (AtRule String)
  | .between, ts => writtenIn true ts
  | .selector _ _ _, ts => writtenIn false ts
  | .atPrelude name prelude _, ts =>
    ⟨name, trimmedText (prelude ++ ts.takeWhile Token.staysIn)⟩ :: writtenIn false ts
  | .body owner body, ts => owner.atRules ++ writtenIn body.clause.starts ts
  | .skippingBlock _, _ => []

-- The at-rules of a text, of which a reader has read all but the rest.
def atRules (r : Reader) (ts : List Token) : List (AtRule String) :=
  around r.frames ++ (r.nodes.atRules ++ coming r.focus ts)

variable {r : Reader} {t : Placed} {ts : List Token} {finish : Position}

theorem atRules_append {n : Node Declaration} : (r.append n).atRules ts =
    around r.frames ++ (r.nodes.atRules ++ (n.atRules ++ writtenIn true ts)) := by
  simp [append, atRules, Sheet.atRules_append_singleton, coming]

theorem atRules_closeBrace {position : Position} (hf : (r.closeBrace position).2 = []) :
    (r.closeBrace position).1.atRules ts =
      around r.frames ++ (r.nodes.atRules ++ writtenIn true ts) := by
  obtain ⟨frames, nodes, focus⟩ := r
  cases frames
  case nil => cases hf
  case cons frame frames =>
    simp only [closeBrace, close, atRules, Sheet.atRules_append_singleton, around, coming]
    simp [Node.atRules, Sheet.atRules]

theorem atRules_openBlock {start : Position} {prelude : List Token}
    (hf : (r.openBlock start prelude false).2 = []) :
    (r.openBlock start prelude false).1.atRules ts =
      around r.frames ++ (r.nodes.atRules ++ writtenIn true ts) := by
  rw [openBlock] at hf ⊢
  cases hs : Selector.listOfText (preludeText prelude) <;>
    simp_all [atRules, look, coming, Owner.atRules, Clause.starts]

theorem atRules_selectorStep {start : Position} {prelude : List Token}
    (hf : (r.selectorStep start prelude false t).2 = []) :
    (r.selectorStep start prelude false t).1.atRules ts =
      around r.frames ++ (r.nodes.atRules ++ writtenIn false (t.token :: ts)) := by
  obtain ⟨token, position⟩ := t
  cases token
  case openBrace => exact atRules_openBlock hf
  case semicolon => cases hf
  case closeBrace => simp [selectorStep] at hf
  all_goals rfl

theorem atRules_openAtRule {name : String} {prelude : List Token} :
    (r.openAtRule name prelude false).atRules ts = around r.frames ++ (r.nodes.atRules ++
      (⟨name, trimmedText prelude⟩ :: writtenIn true ts)) := by
  rw [openAtRule, if_neg Bool.false_ne_true]
  split
  case isTrue => simp [atRules, look, coming, Owner.atRules, Clause.starts]
  case isFalse => simp [atRules, around, coming, Sheet.atRules, Node.atRulesAll]

-- A prelude goes on, or it ends.
theorem coming_of_staysIn {name : String} {prelude : List Token} {token : Token} (h : token.staysIn) :
    coming (.atPrelude name prelude false) (token :: ts) =
      coming (.atPrelude name (prelude ++ [token]) false) ts := by
  simp [coming, writtenIn, AtRule.find, h]

theorem coming_of_not_staysIn {name : String} {prelude : List Token} {token : Token}
    (h : token.staysIn = false) : coming (.atPrelude name prelude false) (token :: ts) =
      ⟨name, trimmedText prelude⟩ :: writtenIn true ts := by
  simp [coming, writtenIn, AtRule.find, h]

theorem atRules_endStatement {name : String} {prelude : List Token} :
    around (r.endStatement name prelude false).frames ++
      ((r.endStatement name prelude false).nodes.atRules ++ writtenIn true ts) =
    around r.frames ++ (r.nodes.atRules ++ (⟨name, trimmedText prelude⟩ :: writtenIn true ts)) := by
  simp [endStatement, append, Sheet.atRules_append_singleton, Node.atRules]

theorem atRules_atPrelude {name : String} {prelude : List Token}
    (hr : r.focus = .atPrelude name prelude false) (hf : (r.step t).2 = []) : (r.step t).1.atRules ts = r.atRules (t.token :: ts) := by
  obtain ⟨token, position⟩ := t
  simp only [step, hr] at hf ⊢
  cases token
  case openBrace =>
    rw [atRules_openAtRule, atRules, hr, coming_of_not_staysIn rfl]
  case closeBrace =>
    rw [atRules_closeBrace hf, atRules_endStatement, atRules, hr, coming_of_not_staysIn rfl]
  case semicolon =>
    refine atRules_endStatement.trans ?_
    rw [atRules, hr, coming_of_not_staysIn rfl]
  all_goals
    rw [atRules, atRules, hr, coming_of_staysIn rfl]
    rfl

-- A token is taken off the rest.
theorem atRules_step (hs : r.isSound) (hf : (r.step t).2 = []) :
    (r.step t).1.atRules ts = r.atRules (t.token :: ts) := by
  obtain ⟨frames, nodes, focus⟩ := r
  cases focus
  case between =>
    obtain ⟨token, position⟩ := t
    have hselector (hk : ∀ name, token ≠ .atKeyword name) (hw : token ≠ .whitespace) :
        writtenIn true (token :: ts) = writtenIn false (token :: ts) :=
      congrArg (List.map written) (@AtRule.find_cons _ id _ _ _ hk hw)
    cases token
    case whitespace => rfl
    case atKeyword => rfl
    case closeBrace => exact atRules_closeBrace hf
    case semicolon => cases hf
    all_goals
      refine (atRules_selectorStep hf).trans ?_
      rw [← hselector (by simp) (by simp)]
      rfl
  case selector start prelude damaged =>
    cases damaged
    case true => cases hs
    case false => exact atRules_selectorStep hf
  case atPrelude name prelude damaged =>
    cases damaged
    case true => cases hs
    case false => exact atRules_atPrelude rfl hf
  case body owner body =>
    simp only [step] at hf ⊢
    have hfind : writtenIn body.clause.starts (t.token :: ts) =
        writtenIn ((body.step t).closed || (body.step t).body.clause.starts) ts :=
      congrArg (List.map written) (Body.find_step hs hf)
    simp only [atRules, coming, hfind]
    cases (body.step t).closed
    case true => exact atRules_append.trans (by rw [Owner.atRules_node]; rfl)
    case false => rfl
  case skippingBlock => cases hs

theorem atRules_closeAll (frames : List Frame) (nodes : Sheet Declaration) :
    (closeAll finish frames nodes).1.atRules = around frames ++ nodes.atRules := by
  induction frames generalizing nodes
  case nil => rfl
  case cons frame frames ih =>
    simp only [closeAll, ih, Sheet.atRules_append_singleton, around]
    simp [Node.atRules, Sheet.atRules]

theorem atRules_endOfText (hs : r.isSound) : (r.endOfText finish).1.atRules = r.atRules [] := by
  obtain ⟨frames, nodes, focus⟩ := r
  cases focus
  case body owner body =>
    simp only [endOfText, atRules_closeAll, append, Sheet.atRules_append_singleton,
      Owner.atRules_node]
    simp [atRules, coming, writtenIn, AtRule.find]
  case atPrelude name prelude damaged =>
    cases damaged
    case true => cases hs
    case false =>
      simp [endOfText, atRules_closeAll, endStatement, append, Sheet.atRules_append_singleton,
        Node.atRules, atRules, coming, writtenIn, AtRule.find]
  case skippingBlock => cases hs
  all_goals simp [endOfText, atRules_closeAll, atRules, coming, writtenIn, AtRule.find]

-- Reading without a fault, a reader completes the at-rules of a text.
theorem atRules_readAll (hs : r.isSound) {ts : List Placed}
    (hf : (r.readAll finish (ts.map .ok)).2 = []) :
    (r.readAll finish (ts.map .ok)).1.atRules = r.atRules (ts.map Placed.token) := by
  induction ts generalizing r
  case nil => exact atRules_endOfText hs
  case cons t ts ih =>
    rw [List.map_cons, readAll] at hf ⊢
    obtain ⟨hstep, hrest⟩ := List.append_eq_nil_iff.mp hf
    rw [List.map_cons, ← atRules_step hs hstep]
    exact ih (isSound_step hs hstep) hrest

-- A prelude is kept as the texts of its tokens.
theorem trimmedText_eq (fs : List Found) :
    trimmedText (fs.map Found.token) = String.ofList (Text.trim (Found.texts fs)) := by
  have htext : (preludeText (fs.map Found.token)).toList = Found.texts fs := by
    induction fs
    case nil => rfl
    case cons f fs ih => simpa [preludeText, Found.texts] using ih
  rw [trimmedText, htext]

end Reader

/-! ### Reading a text -/

namespace AtRule

variable {multibyte : Bool} {starts : Bool}

-- A prelude is found from some place on.
theorem exists_prefix_found {c : Cursor} (h : Cursor.isWellFormed (c.lex multibyte).1) :
    ∀ r ∈ find Found.token starts (c.found multibyte), ∃ c' : Cursor,
      Cursor.isWellFormed (c'.lex multibyte).1 ∧ r.prelude <+: c'.found multibyte := by
  generalize hfs : c.found multibyte = fs
  induction fs generalizing c starts
  case nil => simp [find]
  case cons f fs ih =>
    obtain ⟨c', h', hc'⟩ := Cursor.exists_found_of_cons h hfs
    intro r hr
    simp only [find] at hr
    split at hr
    case h_1 =>
      obtain rfl | hr := List.mem_cons.mp hr
      · exact ⟨c', h', hc' ▸ List.takeWhile_prefix _⟩
      · exact ih h' hc' r hr
    case h_2 => exact ih h' hc' r hr

end AtRule

namespace Sheet

-- The at-rules in a text, with the tokens of their preludes.
def sourceAtRules (multibyte : Bool) (text : String) : List (AtRule (List Found)) :=
  AtRule.find Found.token true ((Cursor.ofText text).found multibyte)

variable {multibyte : Bool} {text : String} {parsed : Parsed}

theorem eq_readAll_of_parse (h : parse { lenient := false, multibyte } text = .ok parsed) :
    ∃ (ts : List Placed) (finish : Position), ((Cursor.ofText text).lex multibyte).1 = ts.map .ok ∧
      (Reader.readAll finish {} (ts.map .ok)).2 = [] ∧
      parsed.sheet = (Reader.readAll finish {} (ts.map .ok)).1 := by
  have hf := (ofLexed_strict_iff rfl _ _).mp ⟨parsed, h⟩
  obtain ⟨ts, hts⟩ := Reader.exists_of_faults_readAll hf
  rw [parse_eq, ofLexed_eq, hf] at h
  rw [hts] at h hf
  exact ⟨ts, _, hts, hf, (congrArg Parsed.sheet (Except.ok.inj h)).symm⟩

-- The at-rules of a style sheet are those of its text.
theorem atRules_of_parse (h : parse { lenient := false, multibyte } text = .ok parsed) :
    parsed.sheet.atRules = (sourceAtRules multibyte text).map fun r =>
      ⟨Text.lower r.name, String.ofList (Text.trim (Found.texts r.prelude))⟩ := by
  obtain ⟨ts, finish, hts, hf, hsheet⟩ := eq_readAll_of_parse h
  have htokens : ts.map Placed.token = ((Cursor.ofText text).found multibyte).map Found.token := by
    rw [Cursor.map_token_found, hts, Cursor.tokens, List.filterMap_map]
    simp [Function.comp_def, Except.toOption]
  have hread : (Reader.readAll finish {} (ts.map .ok)).1.atRules =
      Reader.writtenIn true (ts.map Placed.token) := by
    rw [Reader.atRules_readAll rfl hf]
    rfl
  rw [hsheet, hread, htokens, Reader.writtenIn, AtRule.find_map, List.map_map, sourceAtRules]
  refine List.map_congr_left fun r _ => ?_
  simp [Reader.written, AtRule.map, Reader.trimmedText_eq]

-- What is kept of an at-rule: its name, and a text that is read as its prelude, where NUL in a name
-- or a string is U+FFFD.
structure Keeps (kept : AtRule String) (source : AtRule (List Found)) : Prop where
  name : kept.name = Text.lower source.name
  prelude : Found.areReadable (Found.strip source.prelude) → ∃ placed : List Placed,
    ((Cursor.ofText kept.prelude).lex true).1 = placed.map .ok ∧
    placed.map Placed.token = (Found.strip source.prelude).map (·.token.withoutNul)

-- A text that is read without a fault keeps its at-rules, and their preludes if the texts of their
-- tokens can be told apart.
theorem parse_preludes (h : parse { lenient := false, multibyte } text = .ok parsed) :
    List.Forall₂ Keeps parsed.sheet.atRules (sourceAtRules multibyte text) := by
  obtain ⟨ts, _, hts, -, -⟩ := eq_readAll_of_parse h
  have hlex : Cursor.isWellFormed ((Cursor.ofText text).lex multibyte).1 := by
    simp [hts, Cursor.isWellFormed, Except.isOk, Except.toBool]
  rw [atRules_of_parse h, List.forall₂_map_left_iff, List.forall₂_same]
  intro source hsource
  obtain ⟨c, hc, hprefix⟩ := AtRule.exists_prefix_found hlex source hsource
  exact ⟨rfl, Cursor.exists_lex_texts hc hprefix⟩

-- A comment in front of a colon, and a name that is written with an escape.
theorem parse_preludes_nested :
    (∀ source ∈ sourceAtRules true "@x a/**/:\\31 /**/;",
      Found.areReadable (Found.strip source.prelude)) ∧
    ∃ parsed, parse { lenient := false, multibyte := true } "@x a/**/:\\31 /**/;" = .ok parsed ∧
      List.Forall₂ Keeps parsed.sheet.atRules (sourceAtRules true "@x a/**/:\\31 /**/;") := by
  have hreadable : (sourceAtRules true "@x a/**/:\\31 /**/;").all fun source =>
      Found.areReadable (Found.strip source.prelude) := by cbv
  have hok : ∃ parsed, parse { lenient := false, multibyte := true } "@x a/**/:\\31 /**/;" =
      .ok parsed := ⟨_, by cbv⟩
  obtain ⟨parsed, hparsed⟩ := hok
  exact ⟨List.all_eq_true.mp hreadable, parsed, hparsed, parse_preludes hparsed⟩

-- Where nothing but a comment keeps two names apart, they are kept as one.
theorem not_keeps_comment :
    ¬∀ text parsed, parse { lenient := false, multibyte := true } text = .ok parsed →
      ∀ kept source, (kept, source) ∈ parsed.sheet.atRules.zip (sourceAtRules true text) →
        ∃ placed : List Placed, ((Cursor.ofText kept.prelude).lex true).1 = placed.map .ok ∧
          placed.map Placed.token = (Found.strip source.prelude).map Found.token := by
  intro h
  have hparse : parse { lenient := false, multibyte := true } "@x a/**/b;" =
      .ok ⟨[.atStatement "x" "ab"], []⟩ := by cbv
  have hsource : sourceAtRules true "@x a/**/b;" =
      [⟨"x", [⟨.whitespace, false⟩, ⟨.identifier "a", false⟩, ⟨.identifier "b", true⟩]⟩] := by cbv
  have hlex : ((Cursor.ofText "ab").lex true).1 = [.ok ⟨.identifier "ab", ⟨1, 1⟩⟩] := by cbv
  obtain ⟨placed, hplaced, htokens⟩ := h _ _ hparse ⟨"x", "ab"⟩ _ (by rw [hsource]; exact .head _)
  have hone := congrArg List.length (hlex.symm.trans hplaced)
  have htwo := congrArg List.length htokens
  rw [List.length_map] at hone htwo
  exact absurd (hone.trans htwo) (by decide)

end Sheet
end Stylesheet
