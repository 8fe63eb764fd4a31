import Stylesheet.Proofs.Sheet.Declarations
import Stylesheet.Sheet.Reader
import Stylesheet.Sheet.Writer
/-!
Declarations in braces that are read back from their text. A reader takes in one token after the
other (`Reader.Reaches`), in the value of a declaration and from one declaration to the next. Main
statements: `Declaration.lexes_writeAll`, `Reader.reaches_body`.
-/

namespace Stylesheet

open Lexing

variable {f : Format} {l : Layout} {rest : List Char} {ts us : List Placed} {d : Declaration}

namespace Declaration

-- The tokens of declarations in a row.
def allTokens (f : Format) : List Declaration → List Token
  | [] => []
  | [d] => d.tokens f ++ if f.lastSemicolon then [.semicolon] else []
  | d :: ds => d.tokens f ++ .semicolon :: (blankTokens f.betweenRules.toList ++ allTokens f ds)

structure IsReadable (d : Declaration) : Prop extends IsShaped d where
  isClean : d.isClean

theorem allTokens_head {ds : List Declaration} (hn : ds ≠ []) :
    ∃ name ts, allTokens f ds = .identifier name :: ts := by
  fun_cases allTokens f ds
  case case1 => contradiction
  case case2 d => exact ⟨d.name, _, rfl⟩
  case case3 d ds _ => exact ⟨d.name, _, rfl⟩

theorem lexes_semicolon : Lexes (';' :: rest) [.semicolon] rest :=
  lexes_punctuation (by decide)

theorem lexes_writeAll (hf : l.format.IsReadable) {ds : List Declaration}
    (h : ∀ d ∈ ds, d.IsReadable) (hr : Stops rest) :
    Lexes ((writeAll l ds).toList ++ rest) (allTokens l.format ds) rest := by
  fun_induction writeAll l ds
  case case1 => exact .done
  case case2 d =>
    have hd := h d List.mem_cons_self
    rw [allTokens, String.toList_append, List.append_assoc]
    split
    case isTrue =>
      exact (lexes_write hf hd.toIsShaped hd.isClean (Value.stops_cons (by decide))).append
        lexes_semicolon
    case isFalse =>
      exact (lexes_write hf hd.toIsShaped hd.isClean hr).append .done
  case case3 d ds hn ih =>
    obtain ⟨hd, hds⟩ := List.forall_mem_cons.mp h
    obtain ⟨name, ts, ht⟩ := allTokens_head (f := l.format) (fun he => hn (he ▸ rfl))
    have hds := ih hds
    have hspace := Layout.lexes_spread hf hf.betweenRules ((ht ▸ hds).startsGap (by simp)) hds
    have := (lexes_write hf hd.toIsShaped hd.isClean (Value.stops_cons (by decide))).append
      (lexes_semicolon.append hspace)
    rw [allTokens]
    · simpa [Layout.toList_space] using this
    · exact fun he => hn (he ▸ rfl)

theorem isUnified_writeAll (hf : l.format.IsReadable) {ds : List Declaration}
    (h : ∀ d ∈ ds, d.IsReadable) : Text.isUnified (writeAll l ds).toList := by
  fun_induction writeAll l ds
  case case1 => rfl
  case case2 d =>
    have hd := h d List.mem_cons_self
    rw [String.toList_append, Text.isUnified_append]
    refine ⟨isUnified_write hf hd.toIsShaped hd.isClean, ?_⟩
    split <;> decide
  case case3 d ds _ ih =>
    obtain ⟨hd, hds⟩ := List.forall_mem_cons.mp h
    simp only [String.toList_append, Layout.toList_space, Text.isUnified_append]
    exact ⟨⟨⟨isUnified_write hf hd.toIsShaped hd.isClean, by decide⟩,
      Value.isUnified_spread hf hf.betweenRules⟩, ih hds⟩

end Declaration

namespace Token

-- Whether what a token is in goes on behind it, be it a value or a prelude.
def staysIn (t : Token) : Bool :=
  !([.semicolon, .openBrace, .closeBrace].contains t)

theorem staysIn_blankTokens {spacing : List Char} : ∀ t ∈ blankTokens spacing, t.staysIn := by
  unfold blankTokens
  split <;> simp [staysIn]

end Token

namespace Value

theorem staysIn_leafToken {v : Value} {short : Bool} (hl : v.isLeaf) (hc : v.isClean) :
    (leafToken short v).staysIn := by
  cases v
  case size s =>
    obtain ⟨x, unit⟩ := s
    cases x
    case finite => simp [leafToken, Token.staysIn]
    all_goals cases hc
  case keyword word =>
    rw [leafToken]
    cases CleanWord.of_isCleanWord hc
    case symbol c _ hs _ ht =>
      simp only [standsAlone, Bool.and_eq_true, Bool.or_eq_true, beq_iff_eq] at hs
      rcases hs.2 with he | he <;> simp [ht, he, Token.staysIn]
    all_goals simp_all [Token.staysIn]
  case hex | string | url => simp [leafToken, Token.staysIn]
  case function | pair | list => cases hl

theorem staysIn_between {separator : Separator} : ∀ t ∈ between f separator, t.staysIn := by
  cases separator
  case space => simp [between, Token.staysIn]
  case comma => exact List.forall_mem_cons.mpr ⟨rfl, Token.staysIn_blankTokens⟩

mutual

theorem staysIn_tokens (f : Format) (v : Value) (hc : v.isClean) : ∀ t ∈ v.tokens f, t.staysIn := by
  match v with
  | size s | keyword s | hex s | string s | url s =>
    rw [isLeaf_tokens rfl, List.forall_mem_singleton]
    exact staysIn_leafToken rfl hc
  | function _ name arguments =>
    simp only [isClean, Bool.and_eq_true] at hc
    rw [tokens, List.forall_mem_cons, List.forall_mem_append, List.forall_mem_singleton]
    refine ⟨?_, staysIn_argumentTokens f arguments hc.2, rfl⟩
    unfold opener
    split <;> simp [Token.staysIn]
  | pair first second =>
    simp only [isClean, Bool.and_eq_true] at hc
    rw [tokens, List.forall_mem_append, List.forall_mem_cons]
    exact ⟨staysIn_tokens f first hc.1.1, rfl, staysIn_tokens f second hc.1.2⟩
  | list separator items => exact staysIn_itemTokens f separator items hc

theorem staysIn_argumentTokens (f : Format) (arguments : Option Value)
    (hc : argumentsAreClean arguments) : ∀ t ∈ argumentTokens f arguments, t.staysIn := by
  match arguments with
  | some v => exact staysIn_tokens f v hc
  | none => simp [argumentTokens]

theorem staysIn_itemTokens (f : Format) (separator : Separator) (items : List Value)
    (hc : itemsAreClean items) : ∀ t ∈ itemTokens f separator items, t.staysIn := by
  match items with
  | [] => simp [itemTokens]
  | v :: vs =>
    rw [itemsAreClean, Bool.and_eq_true] at hc
    rw [itemTokens, List.forall_mem_append]
    refine ⟨staysIn_tokens f v hc.1, ?_⟩
    split
    case isTrue => simp
    case isFalse =>
      rw [List.forall_mem_append]
      exact ⟨staysIn_between, staysIn_itemTokens f separator vs hc.2⟩

end

end Value

theorem Declaration.staysIn_valueTokens (hc : d.isClean) :
    ∀ t ∈ d.valueTokens f, t.staysIn := by
  simp only [isClean, Bool.and_eq_true] at hc
  rw [valueTokens, List.forall_mem_append, List.forall_mem_append]
  refine ⟨Token.staysIn_blankTokens, Value.staysIn_tokens f d.value hc.1.2, ?_⟩
  split
  case isTrue =>
    rw [List.forall_mem_append]
    exact ⟨Token.staysIn_blankTokens, by simp [Token.staysIn]⟩
  case isFalse => simp

namespace Reader

variable {r r' r'' : Reader} {t : Placed} {b c : Body} {owner : Owner}

-- What state a reader is in behind some tokens that nothing is wrong with.
def Reaches (r : Reader) (ts : List Placed) (r' : Reader) : Prop :=
  ∀ settings warnings rest,
    run settings r warnings (ts.map .ok ++ rest) = run settings r' warnings rest

namespace Reaches

theorem nil : Reaches r [] r :=
  fun _ _ _ => rfl

theorem append (h₁ : Reaches r ts r') (h₂ : Reaches r' us r'') : Reaches r (ts ++ us) r'' := by
  intro settings warnings rest
  rw [List.map_append, List.append_assoc, h₁, h₂]

theorem cons (h₁ : r.step t = (r', [])) (h₂ : Reaches r' ts r'') : Reaches r (t :: ts) r'' := by
  intro settings warnings rest
  rw [← h₂ settings warnings rest]
  simp [run, read, h₁, Settings.report]

theorem single (h : r.step t = (r', [])) : Reaches r [t] r' :=
  cons h nil

end Reaches

-- A reader in the braces of an owner.
def inside (r : Reader) (owner : Owner) (b : Body) : Reader :=
  r.look (.body owner b)

theorem step_inside (h : b.step t = ⟨c, false, []⟩) :
    (r.inside owner b).step t = (r.inside owner c, []) := by
  simp [inside, look, step, h]

theorem reaches_blanks (done : List Declaration) (h : ∀ t ∈ ts, t.token = .whitespace) :
    Reaches (r.inside owner ⟨done, .between⟩) ts (r.inside owner ⟨done, .between⟩) := by
  induction ts
  case nil => exact .nil
  case cons t ts ih =>
    obtain ⟨ht, hts⟩ := List.forall_mem_cons.mp h
    exact .cons (step_inside (by simp [Body.step, ht, Body.goOn])) (ih hts)

theorem reaches_value {done : List Declaration} {name : String} {position : Position}
    (front : List Placed) (h : ∀ t ∈ ts, t.token.staysIn) :
    Reaches (r.inside owner ⟨done, .value name position front false⟩) ts
      (r.inside owner ⟨done, .value name position (front ++ ts) false⟩) := by
  induction ts generalizing front
  case nil =>
    rw [List.append_nil]
    exact .nil
  case cons t ts ih =>
    obtain ⟨ht, hts⟩ := List.forall_mem_cons.mp h
    have hstep : Body.step ⟨done, .value name position front false⟩ t =
        ⟨⟨done, .value name position (front ++ [t]) false⟩, false, []⟩ := by
      simp only [Body.step]
      split
      case h_1 he | h_2 he | h_3 he =>
        rw [he] at ht
        cases ht
      case h_4 => rfl
    have := ih (front ++ [t]) hts
    rw [List.append_assoc, List.singleton_append] at this
    exact .cons (step_inside hstep) this

-- The tokens of a declaration, up to its end.
theorem reaches_declaration (r : Reader) (owner : Owner) (done : List Declaration) (hd : d.IsReadable)
    (ht : ts.map Placed.token = d.tokens f) :
    ∃ position value, value.map Placed.token = d.valueTokens f ∧
      Reaches (r.inside owner ⟨done, .between⟩) ts
        (r.inside owner ⟨done, .value d.name position value false⟩) := by
  rw [Declaration.tokens, List.map_eq_cons_iff] at ht
  obtain ⟨name, vs, hts, hname, hvs⟩ := ht
  rw [List.map_eq_cons_iff] at hvs
  obtain ⟨colon, value, hvs, hcolon, hvalue⟩ := hvs
  subst hts hvs
  refine ⟨name.position, value, hvalue, .cons (step_inside (c := ⟨done, .afterName d.name
    name.position⟩) ?_) (.cons (step_inside (c := ⟨done, .value d.name name.position [] false⟩)
    ?_) (reaches_value [] ?_))⟩
  · simp [Body.step, hname, Body.goOn, hd.name]
  · simp [Body.step, hcolon, Body.goOn]
  · intro t ht
    exact Declaration.staysIn_valueTokens hd.isClean t.token (hvalue ▸ List.mem_map_of_mem ht)

theorem step_closed {owner : Owner} (h : b.step t = ⟨c, true, []⟩) :
    (r.inside owner b).step t = (r.append (owner.node c.done), []) := by
  simp [inside, look, step, h, append]

theorem endValue_eq {done : List Declaration} {clause : Clause} {name : String}
    {position finish : Position} {tokens : List Placed} {e : Declaration}
    (h : Declaration.ofTokens name position tokens finish = .ok e) :
    Body.endValue ⟨done, clause⟩ name position tokens false finish = (⟨done ++ [e], .between⟩, []) := by
  simp [Body.endValue, h]

theorem reaches_close (done : List Declaration) {closer : Placed} {back : List Placed}
    (hb : ∀ t ∈ back, t.token = .whitespace) (hc : closer.token = .closeBrace) :
    Reaches (r.inside owner ⟨done, .between⟩) (back ++ [closer]) (r.append (owner.node done)) := by
  have hstep : Body.step ⟨done, .between⟩ closer = ⟨⟨done, .between⟩, true, []⟩ := by
    simp [Body.step, hc]
  exact (reaches_blanks done hb).append (.single (step_closed hstep))

-- A declaration that a semicolon ends.
theorem reaches_ended (done : List Declaration) {semicolon : Placed} (hd : d.IsReadable)
    (ht : ts.map Placed.token = d.tokens f) (hs : semicolon.token = .semicolon) :
    ∃ e, (d.shorten f).same e ∧ Reaches (r.inside owner ⟨done, .between⟩) (ts ++ [semicolon])
      (r.inside owner ⟨done ++ [e], .between⟩) := by
  obtain ⟨position, value, hvalue, hreach⟩ := reaches_declaration r owner done hd ht
  obtain ⟨e, he, hof⟩ := Declaration.ofTokens_of_tokens position semicolon.position
    hd.toIsShaped hd.isClean hvalue (List.forall_mem_nil _)
  rw [List.append_nil] at hof
  refine ⟨e, he, hreach.append (.single (step_inside ?_))⟩
  simp [Body.step, hs, endValue_eq hof]

-- A declaration that the closing brace ends.
theorem reaches_last (done : List Declaration) {closer : Placed} {back : List Placed}
    (hd : d.IsReadable) (ht : ts.map Placed.token = d.tokens f)
    (hb : ∀ t ∈ back, t.token = .whitespace) (hc : closer.token = .closeBrace) :
    ∃ e, (d.shorten f).same e ∧
      Reaches (r.inside owner ⟨done, .between⟩) (ts ++ (back ++ [closer]))
        (r.append (owner.node (done ++ [e]))) := by
  obtain ⟨position, value, hvalue, hreach⟩ := reaches_declaration r owner done hd ht
  obtain ⟨e, he, hof⟩ := Declaration.ofTokens_of_tokens position closer.position
    hd.toIsShaped hd.isClean hvalue hb
  have hblanks : ∀ t ∈ back, t.token.staysIn := by
    intro t ht
    simp [hb t ht, Token.staysIn]
  refine ⟨e, he, hreach.append ((reaches_value value hblanks).append
    (.single (step_closed (c := ⟨done ++ [e], .between⟩) ?_)))⟩
  simp [Body.step, hc, endValue_eq hof]

-- The tokens of declarations and the closing brace behind them.
theorem reaches_declarations (done : List Declaration) {ds : List Declaration} {closer : Placed}
    {back : List Placed} (h : ∀ d ∈ ds, d.IsReadable)
    (ht : ts.map Placed.token = Declaration.allTokens f ds)
    (hb : ∀ t ∈ back, t.token = .whitespace) (hc : closer.token = .closeBrace) :
    ∃ es, Declaration.sameAll (ds.map (·.shorten f)) es ∧
      Reaches (r.inside owner ⟨done, .between⟩) (ts ++ (back ++ [closer]))
        (r.append (owner.node (done ++ es))) := by
  fun_induction Declaration.allTokens f ds generalizing done ts
  case case1 =>
    rw [List.map_eq_nil_iff.mp ht]
    exact ⟨[], rfl, by simpa using reaches_close done hb hc⟩
  case case2 d =>
    have hd := h d List.mem_cons_self
    rw [List.map_eq_append_iff] at ht
    obtain ⟨vs, us, hts, hvs, hus⟩ := ht
    subst hts
    split at hus
    case isTrue =>
      rw [List.map_eq_singleton_iff] at hus
      obtain ⟨semicolon, hus, hs⟩ := hus
      subst hus
      obtain ⟨e, he, hreach⟩ := reaches_ended done hd hvs hs
      exact ⟨[e], by simp [Declaration.sameAll, he], hreach.append (reaches_close _ hb hc)⟩
    case isFalse =>
      obtain ⟨e, he, hreach⟩ := reaches_last done hd hvs hb hc
      rw [List.map_eq_nil_iff.mp hus, List.append_nil]
      exact ⟨[e], by simp [Declaration.sameAll, he], hreach⟩
  case case3 d ds _ ih =>
    obtain ⟨hd, hds⟩ := List.forall_mem_cons.mp h
    rw [List.map_eq_append_iff] at ht
    obtain ⟨vs, us, hts, hvs, hus⟩ := ht
    rw [List.map_eq_cons_iff] at hus
    obtain ⟨semicolon, ws, hus, hs, hws⟩ := hus
    rw [List.map_eq_append_iff] at hws
    obtain ⟨blanks, us, hws, hblanks, hus'⟩ := hws
    subst hts hus hws
    obtain ⟨e, he, hreach⟩ := reaches_ended done hd hvs hs
    obtain ⟨es, hes, hmore⟩ := ih (done ++ [e]) hds hus'
    refine ⟨e :: es, by simp [Declaration.sameAll, he, hes], ?_⟩
    have hblanks := @reaches_blanks _ r owner (done ++ [e])
      (Value.forall_of_blankTokens blanks hblanks)
    simpa using hreach.append (hblanks.append hmore)

end Reader
end Stylesheet
