import Stylesheet.Proofs.Sheet.Steps
/-!
What is read stands in the order of the text. The declarations of a style sheet are named by tokens
of the text one after the other, and the faults are found in the order of their positions. Main
statements: `Reader.headers_readAll`, `Reader.inOrder_readAll`, `Sheet.parse_inOrder`.
-/

namespace Stylesheet

open scoped List

variable {result : Lexed} {results : List Lexed} {t : Placed} {finish : Position} {word : String}

/-! ### Names -/

def Declaration.header (d : Declaration) : String × Position :=
  (d.name, d.position)

-- The property name that a token may be.
def Cursor.headers : Lexed → List (String × Position)
  | .ok ⟨.identifier word, p⟩ => [(propertyName word, p)]
  | _ => []

theorem Cursor.headers_sublist :
    (results.flatMap Cursor.headers).map Prod.snd <+ results.map Cursor.positionOf := by
  induction results
  case nil => exact List.Sublist.slnil
  case cons result results ih =>
    rw [List.flatMap_cons, List.map_append, List.map_cons, ← List.singleton_append]
    refine List.Sublist.append ?_ ih
    unfold headers
    split
    · exact List.Sublist.refl _
    · exact List.nil_sublist _

def Clause.headers : Clause → List (String × Position)
  | .afterName name position | .value name position _ _ => [(name, position)]
  | _ => []

namespace Body

variable {b : Body}

-- The names of the declarations, with that of the one that is being read.
def headers (b : Body) : List (String × Position) :=
  b.done.map Declaration.header ++ b.clause.headers

theorem done_sublist_headers : b.done.map Declaration.header <+ b.headers :=
  List.sublist_append_left _ _

theorem headers_skip {token : Token} {faults : List Diagnostic} :
    (b.skip token faults).body.headers <+ b.headers := by
  have hdone : b.done.map Declaration.header ++ [] <+ b.headers := by
    simpa using done_sublist_headers
  unfold skip
  split <;> exact hdone

theorem headers_endValue {name : String} {position : Position} {tokens : List Placed}
    {damaged : Bool} : (b.endValue name position tokens damaged finish).1.headers <+
      b.done.map Declaration.header ++ [(name, position)] := by
  unfold endValue
  split
  case isTrue => exact (List.nil_sublist _).append_left _
  case isFalse =>
    split
    case h_1 d hd =>
      obtain ⟨hn, hp⟩ := Declaration.header_of_ofTokens hd
      simp [headers, Clause.headers, Declaration.header, hn, hp]
    case h_2 => exact (List.nil_sublist _).append_left _

theorem headers_step : (b.step t).body.headers <+ b.headers ++ Cursor.headers (.ok t) := by
  have hsame : b.headers <+ b.headers ++ Cursor.headers (.ok t) := List.sublist_append_left _ _
  have hclause (clause : Clause) (hc : clause.headers = []) :
      (b.goOn clause []).body.headers <+ b.headers ++ Cursor.headers (.ok t) := by
    refine List.Sublist.trans ?_ hsame
    simp [headers, goOn, hc]
  unfold step
  split
  case h_1 hc =>
    split
    case h_3 => exact hsame
    case h_4 name hn =>
      obtain ⟨token, p⟩ := t
      obtain rfl : token = .identifier name := hn
      simp [headers, goOn, hc, Clause.headers, Cursor.headers]
    case h_5 => exact headers_skip.trans hsame
    all_goals exact hclause _ rfl
  case h_2 name position hc =>
    split
    case h_1 => exact hsame
    case h_2 =>
      refine List.Sublist.trans ?_ hsame
      simp [headers, goOn, hc, Clause.headers]
    case h_3 => exact headers_skip.trans hsame
  case h_3 name position tokens damaged hc =>
    have hvalue : b.headers = b.done.map Declaration.header ++ [(name, position)] := by
      simp [headers, hc, Clause.headers]
    split
    case h_1 | h_2 => exact (hvalue ▸ headers_endValue).trans hsame
    case h_3 => exact headers_skip.trans hsame
    case h_4 =>
      refine List.Sublist.trans ?_ hsame
      simp [headers, goOn, hc, Clause.headers]
  case h_4 => exact headers_skip.trans hsame
  case h_5 depth hc =>
    split
    case h_2 => cases depth <;> exact hclause _ rfl
    case h_3 => exact hsame
    all_goals exact hclause _ rfl

theorem headers_damage : b.damage.headers = b.headers := by
  unfold damage
  split
  case h_1 hc => simp [headers, hc, Clause.headers]
  case h_2 => rfl

theorem headers_endOfText : (b.endOfText finish).1.map Declaration.header <+ b.headers := by
  unfold endOfText
  dsimp only
  split
  case h_2 name position tokens damaged hc =>
    have hvalue : b.headers = b.done.map Declaration.header ++ [(name, position)] := by
      simp [headers, hc, Clause.headers]
    exact hvalue ▸ done_sublist_headers.trans headers_endValue
  all_goals exact done_sublist_headers

end Body

namespace Reader

variable {r : Reader}

def headers (r : Reader) : List (String × Position) :=
  r.settled.map Declaration.header ++ r.focus.inner.headers

theorem headers_step : (r.step t).1.headers <+ r.headers ++ Cursor.headers (.ok t) := by
  cases hf : r.focus
  case body owner b =>
    have hb := @Body.headers_step t b
    have hheaders : r.headers = r.settled.map Declaration.header ++ b.headers := by
      simp [headers, hf, Focus.inner]
    rw [hheaders, List.append_assoc]
    simp only [step, hf]
    split
    case isTrue =>
      have happend : (r.append (owner.node (b.step t).body.done)).headers =
          r.settled.map Declaration.header ++ (b.step t).body.done.map Declaration.header := by
        rw [headers, settled_append, Sheet.allDeclarations_node, List.map_append]
        exact List.append_nil _
      exact happend ▸ (Body.done_sublist_headers.trans hb).append_left _
    case isFalse => exact hb.append_left _
  all_goals
    obtain ⟨hsettled, hinner, -⟩ := @outside_step r t (by simp [hf])
    have hheaders : (r.step t).1.headers = r.settled.map Declaration.header := by
      simp [headers, hsettled, hinner, Body.headers, Clause.headers]
    rw [hheaders, headers, List.append_assoc]
    exact List.sublist_append_left _ _

theorem headers_damage : r.damage.headers = r.headers := by
  have hinner : r.damage.focus.inner.headers = r.focus.inner.headers := by
    unfold damage
    split
    case h_3 hf =>
      rw [hf]
      exact Body.headers_damage
    case h_1 hf | h_2 hf =>
      rw [hf]
      rfl
    all_goals rfl
  rw [headers, settled_damage, hinner, headers]

theorem headers_read : (r.read result).1.headers <+ r.headers ++ Cursor.headers result := by
  cases result
  case ok t => exact headers_step
  case error d =>
    rw [read, headers_damage]
    exact List.sublist_append_left _ _

theorem allDeclarations_endOfText : Sheet.allDeclarations (r.endOfText finish).1 =
    r.settled ++ (r.focus.inner.endOfText finish).1 := by
  have hclose (r : Reader) :
      Sheet.allDeclarations (closeAll finish r.frames r.nodes).1 = r.settled :=
    (allDeclarations_closeAll finish r.frames r.nodes).1
  cases hf : r.focus
  case body owner b =>
    simp only [endOfText, hf, hclose, settled_append, Sheet.allDeclarations_node]
    rfl
  case atPrelude name prelude damaged =>
    have hends := @outside_endStatement [] finish r prelude damaged name
    simp only [endOfText, hf, hclose, hends.settled]
    exact (List.append_nil _).symm
  all_goals
    simp only [endOfText, hf, hclose]
    exact (List.append_nil _).symm

-- The declarations that are read are named by tokens, one after the other.
theorem headers_readAll :
    (Sheet.allDeclarations (r.readAll finish results).1).map Declaration.header <+
      r.headers ++ results.flatMap Cursor.headers := by
  induction results generalizing r
  case nil =>
    rw [readAll, allDeclarations_endOfText, List.map_append, List.flatMap_nil, List.append_nil]
    exact Body.headers_endOfText.append_left _
  case cons result results ih =>
    refine (ih (r := (r.read result).1)).trans ?_
    rw [List.flatMap_cons, ← List.append_assoc]
    exact headers_read.append_right _

theorem positions_readAll : (Sheet.allDeclarations (readAll finish {} results).1).map
    Declaration.position <+ results.map Cursor.positionOf := by
  have hnames := (@headers_readAll results finish {}).map Prod.snd
  rw [List.map_map] at hnames
  exact hnames.trans Cursor.headers_sublist

end Reader

/-! ### Origins -/

-- What may stand between a property name and its colon.
def Cursor.IsPassed : Lexed → Prop
  | .ok t => t.token = .whitespace
  | .error _ => True

-- The declaration is read from a property name, a colon behind it and tokens behind the colon.
def Declaration.IsNamedBy (results : List Lexed) (word : String) (d : Declaration) : Prop :=
  ∃ before gap colon run behind finish, results = before ++ .ok ⟨.identifier word, d.position⟩ ::
      (gap ++ .ok ⟨.colon, colon⟩ :: (run.map .ok ++ behind)) ∧
    (∀ result ∈ gap, Cursor.IsPassed result) ∧
    ofTokens (propertyName word) d.position run finish = .ok d

theorem Declaration.IsNamedBy.name_mem {d : Declaration} (h : d.IsNamedBy results word) :
    propertyName word = d.name ∧ .ok ⟨.identifier word, d.position⟩ ∈ results := by
  obtain ⟨before, gap, colon, run, behind, finish, rfl, -, hd⟩ := h
  exact ⟨(header_of_ofTokens hd).1.symm, by simp⟩

-- More of the text changes nothing.
theorem Declaration.isNamedBy_append {ds : List Declaration}
    (h : ∀ d ∈ ds, ∃ word, d.IsNamedBy results word) (more : List Lexed) :
    ∀ d ∈ ds, ∃ word, d.IsNamedBy (results ++ more) word := by
  intro d hd
  obtain ⟨word, before, gap, colon, run, behind, finish, rfl, hgap, hd⟩ := h d hd
  exact ⟨word, before, gap, colon, run, behind ++ more, finish, by simp, hgap, hd⟩

-- The clause is what the last of the results begin.
def Clause.IsBegunBy (results : List Lexed) : Clause → Prop
  | .afterName name position => ∃ before word gap,
    results = before ++ .ok ⟨.identifier word, position⟩ :: gap ∧ propertyName word = name ∧
      ∀ result ∈ gap, Cursor.IsPassed result
  | .value name position tokens false => ∃ before word gap colon,
    results = before ++ .ok ⟨.identifier word, position⟩ ::
        (gap ++ .ok ⟨.colon, colon⟩ :: tokens.map .ok) ∧
      propertyName word = name ∧ ∀ result ∈ gap, Cursor.IsPassed result
  | _ => True

namespace Body

variable {b : Body}

structure IsReadFrom (results : List Lexed) (b : Body) : Prop where
  done : ∀ d ∈ b.done, ∃ word, d.IsNamedBy results word
  clause : b.clause.IsBegunBy results

theorem isReadFrom_skip {token : Token} {faults : List Diagnostic}
    (h : ∀ d ∈ b.done, ∃ word, d.IsNamedBy results word) :
    (b.skip token faults).body.IsReadFrom results := by
  unfold skip
  split <;> exact ⟨h, trivial⟩

theorem isNamedBy_endValue {name : String} {position : Position} {tokens : List Placed}
    {damaged : Bool} (h : b.IsReadFrom results)
    (hc : b.clause = .value name position tokens damaged) :
    ∀ d ∈ (b.endValue name position tokens damaged finish).1.done,
      ∃ word, d.IsNamedBy results word := by
  have hclause := hc ▸ h.clause
  unfold endValue
  split
  case isTrue => exact h.done
  case isFalse hdamaged =>
    obtain rfl : damaged = false := by simpa using hdamaged
    split
    case h_1 d hd =>
      obtain ⟨before, word, gap, colon, rfl, rfl, hgap⟩ := hclause
      obtain ⟨-, rfl⟩ := Declaration.header_of_ofTokens hd
      have hnamed : ∃ word', d.IsNamedBy _ word' :=
        ⟨word, before, gap, colon, tokens, [], finish, by rw [List.append_nil], hgap, hd⟩
      exact List.forall_mem_append.mpr ⟨h.done, List.forall_mem_singleton.mpr hnamed⟩
    case h_2 => exact h.done

theorem isReadFrom_afterName {name : String} {position : Position}
    (h : (Clause.afterName name position).IsBegunBy results) (hr : Cursor.IsPassed result) :
    (Clause.afterName name position).IsBegunBy (results ++ [result]) := by
  obtain ⟨before, word, gap, rfl, hn, hgap⟩ := h
  exact ⟨before, word, gap ++ [result], by simp, hn,
    List.forall_mem_append.mpr ⟨hgap, List.forall_mem_singleton.mpr hr⟩⟩

theorem isReadFrom_step (h : b.IsReadFrom results) :
    (b.step t).body.IsReadFrom (results ++ [.ok t]) := by
  have hdone := Declaration.isNamedBy_append h.done [.ok t]
  have hclause := h.clause
  unfold step
  split
  case h_1 hc =>
    split
    case h_3 => exact ⟨hdone, by rw [hc]; trivial⟩
    case h_4 name hn =>
      obtain ⟨token, p⟩ := t
      obtain rfl : token = .identifier name := hn
      exact ⟨hdone, results, name, [], rfl, rfl, List.forall_mem_nil _⟩
    case h_5 => exact isReadFrom_skip hdone
    all_goals exact ⟨hdone, trivial⟩
  case h_2 name position hc =>
    rw [hc] at hclause
    split
    case h_1 ht =>
      rw [goOn, hc]
      exact ⟨hdone, isReadFrom_afterName hclause ht⟩
    case h_2 ht =>
      obtain ⟨token, p⟩ := t
      obtain rfl : token = .colon := ht
      obtain ⟨before, word, gap, rfl, hn, hgap⟩ := hclause
      exact ⟨hdone, before, word, gap, p, by simp, hn, hgap⟩
    case h_3 => exact isReadFrom_skip hdone
  case h_3 name position tokens damaged hc =>
    rw [hc] at hclause
    have hend := Declaration.isNamedBy_append
      (@isNamedBy_endValue _ t.position _ _ _ _ _ h hc) [.ok t]
    split
    case h_1 | h_2 => exact ⟨hend, by dsimp only; rw [clause_endValue]; trivial⟩
    case h_3 => exact isReadFrom_skip hdone
    case h_4 =>
      refine ⟨hdone, ?_⟩
      cases damaged
      case true => trivial
      case false =>
        obtain ⟨before, word, gap, colon, rfl, hn, hgap⟩ := hclause
        exact ⟨before, word, gap, colon, by simp, hn, hgap⟩
  case h_4 => exact isReadFrom_skip hdone
  case h_5 depth hc =>
    split
    case h_2 => cases depth <;> exact ⟨hdone, trivial⟩
    case h_3 =>
      rw [goOn, hc]
      exact ⟨hdone, trivial⟩
    all_goals exact ⟨hdone, trivial⟩

theorem isReadFrom_damage {d : Diagnostic} (h : b.IsReadFrom results) :
    b.damage.IsReadFrom (results ++ [.error d]) := by
  have hdone := Declaration.isNamedBy_append h.done [.error d]
  unfold damage
  split
  case h_1 => exact ⟨hdone, trivial⟩
  case h_2 hc =>
    refine ⟨hdone, ?_⟩
    cases hclause : b.clause
    case value => exact absurd hclause (hc _ _ _ _)
    case afterName => exact isReadFrom_afterName (hclause ▸ h.clause) trivial
    all_goals trivial

theorem isReadFrom_endOfText (h : b.IsReadFrom results) :
    ∀ d ∈ (b.endOfText finish).1, ∃ word, d.IsNamedBy results word := by
  unfold endOfText
  dsimp only
  split
  case h_2 hc => exact isNamedBy_endValue h hc
  all_goals exact h.done

end Body

namespace Reader

variable {r : Reader}

structure IsReadFrom (results : List Lexed) (r : Reader) : Prop where
  settled : ∀ d ∈ r.settled, ∃ word, d.IsNamedBy results word
  inner : r.focus.inner.IsReadFrom results

theorem isReadFrom_start : Reader.IsReadFrom [] {} :=
  ⟨List.forall_mem_nil _, List.forall_mem_nil _, trivial⟩

theorem isReadFrom_step (h : r.IsReadFrom results) :
    (r.step t).1.IsReadFrom (results ++ [.ok t]) := by
  have hsettled := Declaration.isNamedBy_append h.settled [.ok t]
  cases hf : r.focus
  case body owner b =>
    have hb : b.IsReadFrom results := by simpa [hf, Focus.inner] using h.inner
    have hstep := @Body.isReadFrom_step _ t _ hb
    simp only [step, hf]
    split
    case isTrue =>
      refine ⟨?_, List.forall_mem_nil _, trivial⟩
      rw [settled_append, Sheet.allDeclarations_node]
      exact List.forall_mem_append.mpr ⟨hsettled, hstep.done⟩
    case isFalse => exact ⟨hsettled, hstep⟩
  all_goals
    obtain ⟨hs, hi, -⟩ := @outside_step r t (by simp [hf])
    refine ⟨hs ▸ hsettled, ?_⟩
    rw [hi]
    exact ⟨List.forall_mem_nil _, trivial⟩

theorem isReadFrom_damage {d : Diagnostic} (h : r.IsReadFrom results) :
    r.damage.IsReadFrom (results ++ [.error d]) := by
  constructor
  case settled =>
    rw [settled_damage]
    exact Declaration.isNamedBy_append h.settled [.error d]
  case inner =>
    have hinner := h.inner
    unfold damage
    split
    case h_3 hf =>
      rw [hf] at hinner
      exact Body.isReadFrom_damage hinner
    case h_4 hf | h_5 hf =>
      rw [hf]
      exact ⟨List.forall_mem_nil _, trivial⟩
    all_goals exact ⟨List.forall_mem_nil _, trivial⟩

theorem isReadFrom_read (h : r.IsReadFrom results) :
    (r.read result).1.IsReadFrom (results ++ [result]) := by
  cases result
  case ok t => exact isReadFrom_step h
  case error d => exact isReadFrom_damage h

-- Each declaration is read from its own name and value.
theorem isNamedBy_readAll {front : List Lexed} (h : r.IsReadFrom front) :
    ∀ d ∈ Sheet.allDeclarations (r.readAll finish results).1,
      ∃ word, d.IsNamedBy (front ++ results) word := by
  induction results generalizing r front
  case nil =>
    rw [readAll, allDeclarations_endOfText, List.append_nil]
    exact List.forall_mem_append.mpr ⟨h.settled, Body.isReadFrom_endOfText h.inner⟩
  case cons result results ih => simpa [readAll] using ih (@isReadFrom_read result _ _ h)

/-! ### Faults -/

-- Faults that are found in one place come in front of those that are from there on.
theorem pairwise_of_reports {hold hold' : List Position} {p : Position}
    {faults more : List Diagnostic} (hr : Reports hold p faults hold')
    (hm : (more.map Diagnostic.position).Pairwise (· ≤ ·))
    (h : hold' = [] → ∀ d ∈ more, p ≤ d.position) (hh : ∀ x ∈ hold, x ≤ p) :
    ((faults ++ more).map Diagnostic.position).Pairwise (· ≤ ·) := by
  cases hr
  case nothing => exact hm
  case faults x hx hf =>
    have hxp : x ≤ p := hx.elim (hh x) fun he => he.le
    rw [List.pairwise_map] at hm ⊢
    refine List.pairwise_append.mpr ⟨?_, hm, fun d hd e he => ?_⟩
    · exact List.pairwise_of_forall_mem_list fun d hd e he => by rw [hf d hd, hf e he]
    · exact hf d hd ▸ hxp.trans (h rfl e he)

-- The faults in the rest of a text are in order, if the positions in it are and none is in front of
-- what is held. Each is at a position that is held, or at one in the rest.
theorem inOrder_readAll
    (h : (results.map Cursor.positionOf ++ [finish]).Pairwise (· < ·))
    (hh : ∀ x ∈ r.focus.held, ∀ p ∈ results.map Cursor.positionOf ++ [finish], x ≤ p) :
    ((r.readAll finish results).2.map Diagnostic.position).Pairwise (· ≤ ·) ∧
      ∀ d ∈ (r.readAll finish results).2, d.position ∈ r.focus.held ∨
        d.position ∈ results.map Cursor.positionOf ++ [finish] := by
  induction results generalizing r
  case nil =>
    obtain ⟨faults, more, he, hr, hmore⟩ := @reports_endOfText finish r
    have hheld : ∀ x ∈ r.focus.held, x ≤ finish := fun x hx => hh x hx finish (by simp)
    rw [readAll, he]
    constructor
    case left =>
      refine pairwise_of_reports hr ?_ (fun _ d hd => (hmore d hd).ge) hheld
      rw [List.pairwise_map]
      exact List.pairwise_of_forall_mem_list fun d hd e he => by rw [hmore d hd, hmore e he]
    case right =>
      intro d hd
      rcases List.mem_append.mp hd with hd | hd
      · simpa using hr.position_of_mem d hd
      · exact .inr (by simp [hmore d hd])
  case cons result results ih =>
    rw [List.map_cons, List.cons_append] at h hh ⊢
    obtain ⟨hlt, hrest⟩ := List.pairwise_cons.mp h
    have hr := @reports_read r result
    have hheld : ∀ x ∈ r.focus.held, x ≤ Cursor.positionOf result :=
      fun x hx => hh x hx _ List.mem_cons_self
    have hkept : ∀ x ∈ (r.read result).1.focus.held,
        x ∈ r.focus.held ∨ x = Cursor.positionOf result := hr.mem_of_held
    obtain ⟨hpairwise, hmem⟩ := @ih (r.read result).1 hrest fun x hx p hp => by
      rcases hkept x hx with hx | rfl
      · exact hh x hx p (List.mem_cons_of_mem _ hp)
      · exact (hlt p hp).le
    rw [readAll]
    constructor
    case left =>
      refine pairwise_of_reports hr hpairwise (fun hnone d hd => ?_) hheld
      have hd := (hmem d hd).resolve_left (by simp [hnone])
      exact (hlt _ hd).le
    case right =>
      intro d hd
      rw [List.mem_cons, ← or_assoc]
      rcases List.mem_append.mp hd with hd | hd
      · exact .inl (hr.position_of_mem d hd)
      · exact (hmem d hd).imp_left (hkept _)

end Reader

namespace Sheet

-- What is read from a text stands in its order: faults, as far as one place does not have several,
-- and declarations, each of them at the line and column where the token begins that names it.
theorem parse_inOrder (multibyte : Bool) (text : String) : ∃ parsed,
    parse { lenient := true, multibyte } text = .ok parsed ∧
    (parsed.warnings.map Diagnostic.position).Pairwise (· ≤ ·) ∧
    (parsed.sheet.allDeclarations.map Declaration.position).Pairwise (· < ·) ∧
    ∀ d ∈ parsed.sheet.allDeclarations, ∃ word,
      d.IsNamedBy ((Cursor.ofText text).lex multibyte).1 word ∧ propertyName word = d.name ∧
      ∃ front c rest, Text.unifyLineEnds text.toList = front ++ c :: rest ∧
        (Lexing.lexeme multibyte c rest).result = .ok (.identifier word) ∧
        d.position = ⟨front.count '\n' + 1, (front.reverse.takeWhile (· ≠ '\n')).length + 1⟩ := by
  have hparse : parse { lenient := true, multibyte } text =
      .ok ⟨(Reader.readAll ((Cursor.ofText text).lex multibyte).2 {}
          ((Cursor.ofText text).lex multibyte).1).1,
        (Reader.readAll ((Cursor.ofText text).lex multibyte).2 {}
          ((Cursor.ofText text).lex multibyte).1).2⟩ := by
    rw [parse_eq, ofLexed_eq, Settings.report_lenient rfl]
    rfl
  obtain ⟨-, hrises⟩ := @Cursor.lex_inOrder multibyte (Text.unifyLineEnds text.toList) .start
  refine ⟨_, hparse, ?_, ?_, fun d hd => ?_⟩
  · exact (Reader.inOrder_readAll hrises (List.forall_mem_nil _)).1
  · exact (List.pairwise_append.mp hrises).1.sublist Reader.positions_readAll
  · obtain ⟨word, hnamed⟩ := Reader.isNamedBy_readAll Reader.isReadFrom_start d hd
    obtain ⟨hname, hmem⟩ := hnamed.name_mem
    obtain ⟨front, c, rest, htext, hposition, hlexeme⟩ :=
      Cursor.exists_of_mem_lex (by simp) hmem
    refine ⟨word, hnamed, hname, front, c, rest, htext, hlexeme, ?_⟩
    rw [← Position.start_after]
    exact hposition

end Sheet
end Stylesheet
