import Stylesheet.Proofs.Text.Trimming
import Stylesheet.Proofs.Token.Respelled
/-!
The text of a selector from its beginning on. Normalization makes each run of white space one blank
where it begins; so a text may be cut anywhere, and its parts are normalized one behind the other.
Main statements: `Selector.normalize_unifyLineEnds`, `Selector.exists_squeeze_trimEnd`.
-/

namespace Stylesheet.Selector

open Text (Squeezed)

variable {blank : Bool} {context : Context} {c quote : Char} {cs ds rest : List Char}

namespace Context

-- The context behind one more character as normalization has it: quotes count also behind a
-- backslash.
def pass : Context → Char → Context
  | quoted q, c => inString q c
  | quotedEscape q, _ => quoted q
  | _, c => if isQuote c then quoted c else plain

def passAll (context : Context) (cs : List Char) : Context :=
  cs.foldl pass context

def isInString : Context → Bool
  | quoted _ | quotedEscape _ => true
  | _ => false

-- Whether the quote of a string is a quote.
def isProper : Context → Bool
  | quoted q | quotedEscape q => isQuote q
  | _ => true

theorem passAll_append : context.passAll (cs ++ ds) = (context.passAll cs).passAll ds :=
  List.foldl_append

theorem of_isQuote (h : isQuote quote) :
    Text.isBlank quote = false ∧ Text.isHexDigit quote = false ∧ quote ≠ '\\' := by
  simp only [isQuote, Bool.or_eq_true, beq_iff_eq] at h
  rcases h with rfl | rfl <;> decide

theorem isProper_pass (h : context.isProper) (c : Char) : (context.pass c).isProper := by
  cases context <;> simp only [pass, inString]
  case plain | escaped => split <;> simp_all [isProper]
  case quoted => split <;> (try split) <;> simp_all [isProper]
  case quotedEscape => exact h

theorem pass_of_isBlank (hs : context.isInString = false) (hc : Text.isBlank c) :
    context.pass c = plain := by
  have hq : isQuote c = false :=
    eq_false_of_ne_true fun h => by simp [(of_isQuote h).1] at hc
  cases context
  case plain | escaped => simp [pass, hq]
  case quoted | quotedEscape => cases hs

-- White space in a string stands for itself, also behind a backslash.
theorem pass_quoted (hq : (quoted quote).isProper) (hc : Text.isBlank c) :
    (quoted quote).pass c = quoted quote := by
  have hbackslash : c ≠ '\\' := by
    rintro rfl
    cases hc
  have hquote : c ≠ quote := by
    rintro rfl
    cases (of_isQuote hq).1.symm.trans hc
  simp [pass, inString, hbackslash, hquote]

theorem exists_pass_of_isInString (hp : context.isProper) (hs : context.isInString) :
    ∃ q, (quoted q).isProper ∧ ∀ c, Text.isBlank c → context.pass c = quoted q := by
  cases context
  case plain | escaped => cases hs
  case quoted q => exact ⟨q, hp, fun c => pass_quoted hp⟩
  case quotedEscape q => exact ⟨q, hp, fun _ _ => rfl⟩

end Context

-- Makes each run of white space outside strings one blank, behind white space none.
def squeeze : Bool → Context → List Char → List Char
  | _, _, [] => []
  | blank, context, c :: rest =>
    if !context.isInString && Text.isBlank c then
      if blank then squeeze true (context.pass c) rest
      else ' ' :: squeeze true (context.pass c) rest
    else c :: squeeze false (context.pass c) rest

theorem squeeze_keep (h : context.isInString ∨ Text.isBlank c = false) :
    squeeze blank context (c :: cs) = c :: squeeze false (context.pass c) cs := by
  rw [squeeze, if_neg]
  rcases h with h | h <;> simp [h]

theorem squeeze_blank (hs : context.isInString = false) (hc : Text.isBlank c) :
    squeeze blank context (c :: cs) =
      if blank then squeeze true .plain cs else ' ' :: squeeze true .plain cs := by
  rw [squeeze, if_pos (by simp [hs, hc]), context.pass_of_isBlank hs hc]

-- In a text that does not end in white space, the blank may stand where a run begins or where it
-- ends.
theorem collapse_eq (hl : ∀ c ∈ cs.getLast?, Text.isBlank c = false)
    (hb : blank → cs ≠ [] ∧ context = .plain) : collapse blank context cs =
      if blank then ' ' :: squeeze blank context cs else squeeze blank context cs := by
  induction cs generalizing blank context
  case nil =>
    cases blank
    case false => rfl
    case true => exact absurd rfl (hb rfl).1
  case cons c cs ih =>
    have hlast : ∀ d ∈ cs.getLast?, Text.isBlank d = false := fun d hd =>
      hl d (by rw [List.getLast?_cons, show _ = some d from hd]; rfl)
    have hkeep (context : Context) : collapse false context cs = squeeze false context cs :=
      ih hlast nofun
    cases context
    case quoted | quotedEscape =>
      cases blank
      case true => exact absurd (hb rfl).2 nofun
      case false =>
        simp [collapse, squeeze_keep, Context.isInString, Context.pass, hkeep]
    case plain | escaped =>
      rw [collapse]
      case x_3 | x_4 => nofun
      by_cases hc : Text.isBlank c
      case pos =>
        have hcs : cs ≠ [] := by
          rintro rfl
          cases (hl c rfl).symm.trans hc
        rw [if_pos hc, squeeze_blank rfl hc, ih hlast fun _ => ⟨hcs, rfl⟩]
        cases blank <;> rfl
      case neg =>
        rw [if_neg hc, squeeze_keep (.inr (eq_false_of_ne_true hc))]
        simp only [hkeep, Context.pass]

theorem normalize_eq (cs : List Char) : normalize cs = squeeze false .plain (Text.trim cs) := by
  have hlast : ∀ c ∈ (Text.trim cs).getLast?, Text.isBlank c = false := Text.getLast_trimEnd
  exact (collapse_eq hlast nofun : collapse false .plain (Text.trim cs) = _)

-- It does not matter to normalization how a line ends.
theorem Context.pass_unified (hp : context.isProper) (hs : context.isInString) (c : Char) :
    context.pass (if c = '\r' || c = '\x0c' then '\n' else c) = context.pass c := by
  obtain ⟨q, -, hpass⟩ := context.exists_pass_of_isInString hp hs
  split
  case isTrue h =>
    have hb := (Text.isBlank_unified c).symm
    rw [if_pos h] at hb
    rw [hpass _ (by decide), hpass _ (hb.trans (by decide))]
  case isFalse => rfl

theorem unifyLineEnds_squeeze (hp : context.isProper) :
    Text.unifyLineEnds (squeeze blank context cs) =
      squeeze blank context (Text.unifyLineEnds cs) := by
  fun_induction Text.unifyLineEnds cs generalizing blank context
  case case1 => rfl
  case case2 rest ih =>
    cases hs : context.isInString
    case true =>
      obtain ⟨q, hq, hpass⟩ := context.exists_pass_of_isInString hp hs
      rw [squeeze_keep (.inl hs), squeeze_keep (.inl hs), hpass _ (by decide), hpass _ (by decide),
        squeeze_keep (.inl rfl), Context.pass_quoted hq (by decide), Text.unifyLineEnds, ih hq]
    case false =>
      have hskip : squeeze true .plain ('\n' :: rest) = squeeze true .plain rest :=
        squeeze_blank rfl (by decide)
      rw [squeeze_blank hs (by decide), squeeze_blank hs (by decide), hskip, ← ih rfl]
      cases blank
      case false => exact Text.unifyLineEnds_cons (by decide) (by decide)
      case true => rfl
  case case3 c rest hc ih =>
    cases hs : context.isInString
    case true =>
      rw [squeeze_keep (.inl hs), squeeze_keep (.inl hs), Context.pass_unified hp hs,
        ← ih (context.isProper_pass hp c), Text.unifyLineEnds.eq_3]
      -- Behind a carriage return the string goes on as it is.
      rintro es rfl he
      obtain ⟨q, -, hpass⟩ := context.exists_pass_of_isInString hp hs
      rw [hpass _ (by decide)] at he
      cases rest
      case nil => cases he
      case cons d rest =>
        rw [squeeze_keep (.inl rfl)] at he
        exact hc rest rfl (by rw [(List.cons.inj he).1])
    case false =>
      by_cases hb : Text.isBlank c
      case pos =>
        rw [squeeze_blank hs hb, squeeze_blank hs ((Text.isBlank_unified c).trans hb), ← ih rfl]
        cases blank
        case false => exact Text.unifyLineEnds_cons (by decide) (by decide)
        case true => rfl
      case neg =>
        have hr : c ≠ '\r' := by
          rintro rfl
          exact hb (by decide)
        have hf : c ≠ '\x0c' := by
          rintro rfl
          exact hb (by decide)
        have hb := eq_false_of_ne_true hb
        rw [squeeze_keep (.inr hb), Text.unifyLineEnds_cons hr hf, ih (context.isProper_pass hp c)]
        simp only [hr, hf, decide_false, Bool.or_self, Bool.false_eq_true, if_false]
        rw [squeeze_keep (.inr hb)]

theorem normalize_unifyLineEnds (cs : List Char) :
    Text.unifyLineEnds (normalize cs) = normalize (Text.unifyLineEnds cs) := by
  rw [normalize_eq, normalize_eq, unifyLineEnds_squeeze rfl, Text.trim_unifyLineEnds]

/-! ### Parts of a text -/

theorem squeeze_cons (blank : Bool) (context : Context) (c : Char) (cs : List Char) :
    squeeze blank context (c :: cs) = squeeze blank context [c] ++
      squeeze (!context.isInString && Text.isBlank c) (context.pass c) cs := by
  simp only [squeeze]
  split
  case isTrue h => cases blank <;> simp [h]
  case isFalse h => simp [eq_false_of_ne_true h]

theorem exists_squeeze_append (blank : Bool) (context : Context) (cs ds : List Char) :
    ∃ blank', squeeze blank context (cs ++ ds) =
        squeeze blank context cs ++ squeeze blank' (context.passAll cs) ds ∧
      (blank' → cs = [] ∧ blank ∨ ∃ c ∈ cs.getLast?, Text.isBlank c) := by
  induction cs generalizing blank context
  case nil => exact ⟨blank, rfl, fun h => .inl ⟨rfl, h⟩⟩
  case cons c cs ih =>
    obtain ⟨blank', happend, hblank⟩ :=
      ih (!context.isInString && Text.isBlank c) (context.pass c)
    refine ⟨blank', ?_, fun h => .inr ?_⟩
    · rw [List.cons_append, squeeze_cons, happend, squeeze_cons _ _ _ cs, List.append_assoc]
      rfl
    · obtain ⟨rfl, hc⟩ | ⟨d, hd, hblank⟩ := hblank h
      · exact ⟨c, rfl, (Bool.and_eq_true .. ▸ hc).2⟩
      · exact ⟨d, by rw [List.getLast?_cons, show _ = some d from hd]; rfl, hblank⟩

theorem squeezed_squeeze (blank : Bool) (context : Context) (cs : List Char) :
    Squeezed rest blank cs (squeeze blank context cs) := by
  fun_induction squeeze blank context cs
  case case1 => exact .nil
  case case2 hc ih => exact .skip (Bool.and_eq_true .. ▸ hc).2 ih
  case case3 hc _ ih => exact .blank (Bool.and_eq_true .. ▸ hc).2 ih
  case case4 ih => exact .keep ih

-- The end of a text may be left out.
theorem squeezed_append {blanks : List Char} (hb : ∀ c ∈ blanks, Text.isBlank c)
    (h : Squeezed [] blank cs ds) : Squeezed [] blank (cs ++ blanks) ds := by
  induction h
  case nil => exact .last rfl hb
  case keep ih => exact .keep ih
  case blank hc _ ih => exact .blank hc ih
  case skip hc _ ih => exact .skip hc ih
  case last hcs => exact .last rfl (List.forall_mem_append.mpr ⟨hcs, hb⟩)

theorem squeezed_trimEnd (blank : Bool) (context : Context) (cs : List Char) :
    Squeezed [] blank cs (squeeze blank context (Text.trimEnd cs)) := by
  obtain ⟨blanks, hcs, hblanks⟩ := Text.exists_trimEnd cs
  have := squeezed_append hblanks (squeezed_squeeze blank context (Text.trimEnd cs))
  rwa [← hcs] at this

-- A text in two parts: the first is normalized in front of what is left of the second.
theorem exists_squeeze_trimEnd (blank : Bool) (context : Context) (cs ds : List Char) :
    ∃ blank' cs', squeeze blank context (Text.trimEnd (cs ++ ds)) =
        cs' ++ squeeze blank' (context.passAll cs) (Text.trimEnd ds) ∧
      Squeezed (squeeze blank' (context.passAll cs) (Text.trimEnd ds)) blank cs cs' ∧
      ((∀ c ∈ cs.getLast?, Text.isBlank c = false) → cs' = squeeze blank context cs) ∧
      (blank' → cs = [] ∧ blank ∨ ∃ c ∈ cs.getLast?, Text.isBlank c) := by
  by_cases hds : Text.trimEnd ds = []
  case neg =>
    obtain ⟨blank', happend, hblank⟩ :=
      exists_squeeze_append blank context cs (Text.trimEnd ds)
    exact ⟨blank', _, by rw [Text.trimEnd_append hds, happend], squeezed_squeeze .., fun _ => rfl,
      hblank⟩
  case pos =>
    -- Nothing is left of the second part.
    refine ⟨false, squeeze blank context (Text.trimEnd cs), ?_, ?_, fun h => ?_, nofun⟩
    · rw [Text.trimEnd_append_of_isBlank (Text.isBlank_of_trimEnd hds), hds, squeeze,
        List.append_nil]
    · rw [hds]
      exact squeezed_trimEnd ..
    · rw [Text.trimEnd_of_getLast h]

/-! ### Strings -/

open Lexing

-- The context in a string whose escape waits for something.
def Context.ofPending (quote : Char) : Pending → Context
  | .any => .quotedEscape quote
  | _ => .quoted quote

theorem inString_of_ne (hc : c ≠ quote) : Context.inString quote c =
    .ofPending quote (if c = '\\' then .any else .nothing) := by
  rw [Context.inString]
  split <;> rfl

theorem pass_ofPending (hq : isQuote quote) {pending : Pending}
    (h : c = quote → (pending.take? c).isSome) :
    (Context.ofPending quote pending).pass c = .ofPending quote (pending.next c) := by
  obtain ⟨hblank, hhex, -⟩ := Context.of_isQuote hq
  cases pending
  case nothing => exact inString_of_ne fun hc => by cases h hc
  case any => simp only [Pending.next, Pending.take?]; split <;> rfl
  case hex left code =>
    have hc : c ≠ quote := by
      rintro rfl
      simp [Pending.take?, hblank, hhex] at h
    refine (inString_of_ne hc).trans ?_
    by_cases hb : c = '\\'
    case pos =>
      subst hb
      have htake : (Pending.hex left code).take? '\\' = none := by
        have hhex : Text.isHexDigit '\\' = false := by decide
        have hblank : Text.isBlank '\\' = false := by decide
        simp [Pending.take?, hhex, hblank]
      simp [Pending.next, htake]
    case neg =>
      simp only [Pending.next, Pending.take?, hb, if_false]
      split
      · rfl
      · split <;> rfl

-- The content of a string is left as it is.
theorem squeeze_stringSpan (hq : isQuote quote) {pending : Pending}
    (h : stringSpan quote pending (cs ++ quote :: rest) = (cs, quote :: rest)) :
    squeeze blank (.ofPending quote pending) cs = cs ∧
      (Context.ofPending quote pending).passAll cs = .quoted quote := by
  induction cs generalizing blank pending
  case nil =>
    refine ⟨rfl, ?_⟩
    cases pending
    case any => cases (Prod.mk.inj h).1
    case nothing | hex => rfl
  case cons c cs ih =>
    have hnext : (c = quote → (pending.take? c).isSome) ∧
        stringSpan quote (pending.next c) (cs ++ quote :: rest) = (cs, quote :: rest) := by
      rw [List.cons_append, stringSpan] at h
      cases htake : pending.take? c
      case some pending' =>
        simp only [htake] at h
        obtain ⟨hcs, hrest⟩ := Prod.mk.inj h
        rw [Pending.next, htake]
        exact ⟨fun _ => rfl, Prod.ext (List.cons.inj hcs).2 hrest⟩
      case none =>
        simp only [htake] at h
        split at h
        case isTrue => cases (Prod.mk.inj h).1
        case isFalse hc =>
          obtain ⟨hcs, hrest⟩ := Prod.mk.inj h
          rw [Pending.next, htake]
          exact ⟨fun he => absurd he (by simp_all), Prod.ext (List.cons.inj hcs).2 hrest⟩
    obtain ⟨hcs, hall⟩ := @ih false _ hnext.2
    have hin : (Context.ofPending quote pending).isInString := by cases pending <;> rfl
    rw [squeeze_keep (.inl hin), pass_ofPending hq hnext.1, hcs]
    refine ⟨rfl, ?_⟩
    rw [Context.passAll, List.foldl_cons, pass_ofPending hq hnext.1]
    exact hall

theorem squeeze_string (hq : isQuote quote)
    (h : stringSpan quote .nothing (cs ++ quote :: rest) = (cs, quote :: rest)) :
    squeeze blank .plain (quote :: (cs ++ [quote])) = quote :: (cs ++ [quote]) ∧
      Context.plain.passAll (quote :: (cs ++ [quote])) = .plain := by
  obtain ⟨hblank, -, hbackslash⟩ := Context.of_isQuote hq
  have hpass : Context.plain.pass quote = .ofPending quote .nothing := by
    simp [Context.pass, hq, Context.ofPending]
  obtain ⟨hcs, hall⟩ := @squeeze_stringSpan false quote cs rest hq .nothing h
  obtain ⟨blank', happend, -⟩ := exists_squeeze_append false (.ofPending quote .nothing) cs [quote]
  constructor
  · rw [squeeze_keep (.inr hblank), hpass, happend, hcs, hall, squeeze_keep (.inl rfl)]
    rfl
  · rw [Context.passAll, List.foldl_cons, hpass, List.foldl_append]
    have hquote : (Context.quoted quote).pass quote = .plain := by
      simp [Context.pass, Context.inString, hbackslash]
    exact (congrArg (Context.passAll · [quote]) hall).trans hquote

end Stylesheet.Selector
