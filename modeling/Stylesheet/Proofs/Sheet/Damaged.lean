import Stylesheet.Proofs.Sheet.Bodies
import Stylesheet.Proofs.Sheet.Composition
import Stylesheet.Proofs.Sheet.Order
/-!
Malformed tokens in a declaration. One behind the colon discards the declaration, wherever it stands
and whatever else is wrong; one between the property name and the colon is only passed over. Main
statements: `Sheet.parse_discards_damaged`, `Sheet.parse_keeps_damaged`.
-/

namespace Stylesheet

variable {p finish : Position} {results : List Lexed} {result : Lexed} {t : Placed} {solid : Bool}

-- Whether a declaration that has begun does not end in the results. The rest of one with a brace in
-- its value is not looked at.
def Cursor.staysIn : List Lexed → Bool
  | [] => true
  | .error _ :: results => staysIn results
  | .ok t :: results => t.token = .openBrace || t.token.staysIn && staysIn results

-- Whether a declaration is taken further than white space takes it.
def Cursor.isSolid : Lexed → Bool
  | .ok t => !t.token.isWhitespace
  | .error _ => false

namespace Clause

-- A declaration that begins at a position, if it is being read, has its colon.
def HasColon (p : Position) : Clause → Prop
  | .afterName _ position => position ≠ p
  | _ => True

-- If it is being read, it will not be kept.
def Drops (p : Position) : Clause → Prop
  | .afterName _ position => position ≠ p
  | .value _ position _ damaged => position = p → damaged
  | _ => True

theorem Drops.hasColon {clause : Clause} (h : clause.Drops p) : clause.HasColon p := by
  cases clause
  case afterName => exact h
  all_goals trivial

end Clause

namespace Body

variable {b : Body}

theorem done_step (ht : t.token.staysIn ∨ t.token = .openBrace) : (b.step t).body.done = b.done := by
  obtain ⟨done, clause⟩ := b
  obtain ⟨token, position⟩ := t
  cases clause <;> cases token <;> first | rfl | simp [Token.staysIn] at ht

theorem hasColon_step (hb : Cursor.isSolid (.ok t) ∨ b.clause.HasColon p) (hp : t.position ≠ p) :
    (b.step t).body.clause.HasColon p := by
  obtain ⟨done, clause⟩ := b
  obtain ⟨token, position⟩ := t
  cases clause
  case between =>
    cases token
    case identifier => exact hp
    all_goals trivial
  case afterName =>
    cases token
    case whitespace => exact hb.resolve_left (by simp [Cursor.isSolid, Token.isWhitespace])
    all_goals trivial
  case value =>
    cases token
    case semicolon | closeBrace =>
      simp only [step]
      rw [clause_endValue]
      trivial
    all_goals trivial
  case skipping => cases token <;> trivial
  case skippingBlock depth =>
    cases token
    case closeBrace => cases depth <;> trivial
    all_goals trivial

-- A brace in front of the end of a declaration is more than is passed over.
theorem drops_step_openBrace (ht : t.token = .openBrace) : (b.step t).body.clause.Drops p := by
  obtain ⟨done, clause⟩ := b
  obtain ⟨token, position⟩ := t
  subst ht
  cases clause <;> trivial

theorem drops_damage (h : b.clause.HasColon p) : b.damage.clause.Drops p := by
  obtain ⟨done, clause⟩ := b
  cases clause
  case afterName => exact h
  case value => exact fun _ => rfl
  all_goals trivial

theorem hasColon_damage (h : b.clause.HasColon p) : b.damage.clause.HasColon p :=
  (drops_damage h).hasColon

theorem done_damage : b.damage.done = b.done := by
  obtain ⟨done, clause⟩ := b
  cases clause <;> rfl

-- A value that is damaged, or another declaration's, makes no declaration at the position.
theorem forall_endValue {name : String} {position : Position} {tokens : List Placed}
    {damaged : Bool} (hd : ∀ d ∈ b.done, d.position ≠ p) (h : position = p → damaged) :
    ∀ d ∈ (b.endValue name position tokens damaged finish).1.done, d.position ≠ p := by
  unfold endValue
  split
  case isTrue => exact hd
  case isFalse hdamaged =>
    split
    case h_1 d hof =>
      have hposition : d.position ≠ p := by
        rw [(Declaration.header_of_ofTokens hof).2]
        exact fun he => hdamaged (h he)
      exact List.forall_mem_append.mpr ⟨hd, List.forall_mem_singleton.mpr hposition⟩
    case h_2 => exact hd

end Body

/-! ### Bodies and readers without the declaration -/

-- No declaration that was read begins at the position, and one that is being read satisfies what it
-- should.
structure Body.Misses (p : Position) (going : Clause → Prop) (b : Body) : Prop where
  done : ∀ d ∈ b.done, d.position ≠ p
  clause : going b.clause

structure Reader.Misses (p : Position) (going : Clause → Prop) (r : Reader) : Prop where
  settled : ∀ d ∈ r.settled, d.position ≠ p
  inner : r.focus.inner.Misses p going

-- The declaration at a position is open. It has its colon if more than white space was read.
def Clause.IsOpen (p : Position) (solid : Bool) (clause : Clause) : Prop :=
  solid → clause.HasColon p

namespace Body

variable {b : Body}

theorem Misses.drops_step (h : b.Misses p (Clause.Drops p)) (hp : t.position ≠ p) :
    (b.step t).body.Misses p (Clause.Drops p) := by
  obtain ⟨done, clause⟩ := b
  obtain ⟨token, position⟩ := t
  obtain ⟨hdone, hclause⟩ := h
  cases clause
  case value name start tokens damaged =>
    have hend := @forall_endValue p position ⟨done, .value name start tokens damaged⟩ name start
      tokens damaged hdone hclause
    cases token
    case semicolon | closeBrace =>
      refine ⟨hend, ?_⟩
      simp only [step]
      rw [clause_endValue]
      trivial
    case openBrace => exact ⟨hdone, trivial⟩
    all_goals exact ⟨hdone, hclause⟩
  case between =>
    cases token
    case identifier => exact ⟨hdone, hp⟩
    all_goals exact ⟨hdone, trivial⟩
  case afterName =>
    cases token
    case whitespace => exact ⟨hdone, hclause⟩
    case colon => exact ⟨hdone, fun he => absurd he hclause⟩
    all_goals exact ⟨hdone, trivial⟩
  case skipping => cases token <;> exact ⟨hdone, trivial⟩
  case skippingBlock depth =>
    cases token
    case closeBrace => cases depth <;> exact ⟨hdone, trivial⟩
    all_goals exact ⟨hdone, trivial⟩

theorem Misses.isOpen_step (h : b.Misses p (Clause.IsOpen p solid)) (ht : t.token.staysIn)
    (hp : t.position ≠ p) :
    (b.step t).body.Misses p (Clause.IsOpen p (solid || Cursor.isSolid (.ok t))) := by
  constructor
  case done =>
    rw [done_step (.inl ht)]
    exact h.done
  case clause =>
    intro hsolid
    refine hasColon_step ?_ hp
    cases hs : solid
    case true => exact .inr (h.clause hs)
    case false =>
      rw [hs] at hsolid
      exact .inl hsolid

theorem Misses.damage {going going' : Clause → Prop} (h : b.Misses p going)
    (hgoing : going' b.damage.clause) : b.damage.Misses p going' where
  done := by
    rw [done_damage]
    exact h.done
  clause := hgoing

theorem Misses.endOfText (h : b.Misses p (Clause.Drops p)) :
    ∀ d ∈ (b.endOfText finish).1, d.position ≠ p := by
  obtain ⟨done, clause⟩ := b
  obtain ⟨hdone, hclause⟩ := h
  cases clause
  case value => exact forall_endValue hdone hclause
  all_goals exact hdone

end Body

namespace Reader

variable {r : Reader}

-- Outside of declarations nothing is begun or kept.
theorem Misses.step {going going' : Clause → Prop} (h : r.Misses p going)
    (hbody : ∀ b : Body, b.Misses p going → (b.step t).body.Misses p going') (hend : going' .between) :
    (r.step t).1.Misses p going' := by
  have hnone : Body.Misses p going' {} := ⟨List.forall_mem_nil _, hend⟩
  obtain ⟨hsettled, hinner⟩ := h
  cases hf : r.focus
  case body owner b =>
    have hb := hbody b (by simpa [hf, Focus.inner] using hinner)
    simp only [Reader.step, hf]
    split
    case isTrue =>
      refine ⟨?_, hnone⟩
      rw [settled_append, Sheet.allDeclarations_node]
      exact List.forall_mem_append.mpr ⟨hsettled, hb.done⟩
    case isFalse => exact ⟨hsettled, hb⟩
  all_goals
    obtain ⟨hs, hi, -⟩ := @outside_step r t (by simp [hf])
    exact ⟨hs ▸ hsettled, hi ▸ hnone⟩

theorem Misses.damage {going going' : Clause → Prop} (h : r.Misses p going)
    (hbody : ∀ b : Body, b.Misses p going → b.damage.Misses p going') :
    r.damage.Misses p going' := by
  have hdamage : r.damage.focus.inner = r.focus.inner.damage := by
    cases hf : r.focus <;> simp only [Reader.damage, hf] <;> rfl
  constructor
  case settled =>
    rw [settled_damage]
    exact h.settled
  case inner =>
    rw [hdamage]
    exact hbody _ h.inner

theorem Misses.drops_read (h : r.Misses p (Clause.Drops p)) (hp : Cursor.positionOf result ≠ p) :
    (r.read result).1.Misses p (Clause.Drops p) := by
  cases result
  case ok t => exact h.step (fun b hb => hb.drops_step hp) trivial
  case error e => exact h.damage fun b hb => hb.damage (Body.drops_damage hb.clause.hasColon)

theorem Misses.drops_readAll (h : r.Misses p (Clause.Drops p))
    (hp : ∀ result ∈ results, Cursor.positionOf result ≠ p) :
    ∀ d ∈ Sheet.allDeclarations (r.readAll finish results).1, d.position ≠ p := by
  induction results generalizing r
  case nil =>
    rw [readAll, allDeclarations_endOfText]
    exact List.forall_mem_append.mpr ⟨h.settled, h.inner.endOfText⟩
  case cons result results ih =>
    obtain ⟨hresult, hresults⟩ := List.forall_mem_cons.mp hp
    exact ih (h.drops_read hresult) hresults

-- The results in front of a malformed token, and all of those behind it. Either a brace is passed,
-- or the declaration has its colon when the token comes.
theorem Misses.isOpen_readAll {front behind : List Lexed} {e : Diagnostic}
    (h : r.Misses p (Clause.IsOpen p solid)) (hin : Cursor.staysIn front)
    (hsolid : solid || front.any Cursor.isSolid)
    (hp : ∀ result ∈ front ++ .error e :: behind, Cursor.positionOf result ≠ p) :
    ∀ d ∈ Sheet.allDeclarations (r.readAll finish (front ++ .error e :: behind)).1,
      d.position ≠ p := by
  induction front generalizing r solid
  case nil =>
    obtain ⟨-, hbehind⟩ := List.forall_mem_cons.mp hp
    rw [List.any_nil, Bool.or_false] at hsolid
    have hdrops : r.damage.Misses p (Clause.Drops p) :=
      h.damage fun b hb => hb.damage (Body.drops_damage (hb.clause hsolid))
    exact hdrops.drops_readAll hbehind
  case cons result front ih =>
    obtain ⟨hresult, hrest⟩ := List.forall_mem_cons.mp hp
    rw [List.any_cons, ← Bool.or_assoc] at hsolid
    cases result
    case error d =>
      refine @ih solid _ (h.damage fun b hb => hb.damage fun hs =>
        Body.hasColon_damage (hb.clause hs)) hin ?_ hrest
      simpa [Cursor.isSolid] using hsolid
    case ok t =>
      simp only [Cursor.staysIn, Bool.or_eq_true, decide_eq_true_eq, Bool.and_eq_true] at hin
      rcases hin with ho | ⟨ht, hin⟩
      · have hdrops : (r.step t).1.Misses p (Clause.Drops p) := by
          refine h.step (fun b hb => ⟨?_, Body.drops_step_openBrace ho⟩) trivial
          rw [Body.done_step (.inr ho)]
          exact hb.done
        exact hdrops.drops_readAll hrest
      · exact ih (h.step (fun b hb => hb.isOpen_step ht hresult) fun _ => trivial) hin hsolid hrest

theorem Misses.drops_readOn (h : r.Misses p (Clause.Drops p))
    (hp : ∀ result ∈ results, Cursor.positionOf result ≠ p) :
    (r.readOn results).1.Misses p (Clause.Drops p) := by
  induction results generalizing r
  case nil => exact h
  case cons result results ih =>
    obtain ⟨hresult, hresults⟩ := List.forall_mem_cons.mp hp
    exact ih (h.drops_read hresult) hresults

end Reader

namespace Sheet

variable {settings : Settings} {text word : String} {before front behind : List Lexed}
  {e : Diagnostic}

-- A malformed token in a declaration discards the declaration, if there is more than white space
-- between the property name and it.
theorem parse_discards_damaged (hl : settings.lenient)
    (hlex : ((Cursor.ofText text).lex settings.multibyte).1 =
      before ++ .ok ⟨.identifier word, p⟩ :: (front ++ .error e :: behind))
    (hin : Cursor.staysIn front) (hsolid : front.any Cursor.isSolid) :
    ∃ parsed, parse settings text = .ok parsed ∧
      ∀ d ∈ parsed.sheet.allDeclarations, d.position ≠ p := by
  obtain ⟨finish, hparse⟩ := parse_lenient hl text
  refine ⟨_, hparse, ?_⟩
  -- Nothing but the property name stands at the position.
  obtain ⟨-, hrises⟩ := @Cursor.lex_inOrder settings.multibyte (Text.unifyLineEnds text.toList) .start
  have hrises := (List.pairwise_append.mp hrises).1
  have hpositions : (before ++ .ok ⟨.identifier word, p⟩ :: (front ++ .error e :: behind)).Pairwise
      fun result result' => Cursor.positionOf result < Cursor.positionOf result' :=
    hlex ▸ List.pairwise_map.mp hrises
  obtain ⟨-, hrest, hbefore⟩ := List.pairwise_append.mp hpositions
  obtain ⟨hbehind, -⟩ := List.pairwise_cons.mp hrest
  have hstart : Reader.Misses p (Clause.Drops p) {} :=
    ⟨List.forall_mem_nil _, List.forall_mem_nil _, trivial⟩
  have hreached := hstart.drops_readOn fun result hr =>
    (hbefore result hr _ List.mem_cons_self).ne
  -- With the property name the declaration begins.
  have hnamed : ((Reader.readOn {} before).1.step ⟨.identifier word, p⟩).1.Misses p
      (Clause.IsOpen p false) := by
    refine hreached.step (fun b hb => ⟨?_, fun h => by cases h⟩) fun h => by cases h
    rw [Body.done_step (.inl rfl)]
    exact hb.done
  rw [hlex, Reader.leads_readOn]
  exact hnamed.isOpen_readAll hin hsolid fun result hr => (hbehind result hr).ne'

-- A string without its end, behind the colon.
theorem parse_discards_damaged_string :
    ((Cursor.ofText "a\x7bb:\"\n;d:e\x7d").lex true).1 =
      [.ok ⟨.identifier "a", ⟨1, 1⟩⟩, .ok ⟨.openBrace, ⟨1, 2⟩⟩, .ok ⟨.identifier "b", ⟨1, 3⟩⟩,
        .ok ⟨.colon, ⟨1, 4⟩⟩, .error ⟨.lexical .unterminatedString, ⟨1, 5⟩⟩,
        .ok ⟨.whitespace, ⟨1, 6⟩⟩, .ok ⟨.semicolon, ⟨2, 1⟩⟩, .ok ⟨.identifier "d", ⟨2, 2⟩⟩,
        .ok ⟨.colon, ⟨2, 3⟩⟩, .ok ⟨.identifier "e", ⟨2, 4⟩⟩, .ok ⟨.closeBrace, ⟨2, 5⟩⟩] ∧
    ∃ parsed, parse {} "a\x7bb:\"\n;d:e\x7d" = .ok parsed ∧
      ∀ d ∈ parsed.sheet.allDeclarations, d.position ≠ ⟨1, 3⟩ := by
  have hlex : ((Cursor.ofText "a\x7bb:\"\n;d:e\x7d").lex true).1 =
      [.ok ⟨.identifier "a", ⟨1, 1⟩⟩, .ok ⟨.openBrace, ⟨1, 2⟩⟩, .ok ⟨.identifier "b", ⟨1, 3⟩⟩,
        .ok ⟨.colon, ⟨1, 4⟩⟩, .error ⟨.lexical .unterminatedString, ⟨1, 5⟩⟩,
        .ok ⟨.whitespace, ⟨1, 6⟩⟩, .ok ⟨.semicolon, ⟨2, 1⟩⟩, .ok ⟨.identifier "d", ⟨2, 2⟩⟩,
        .ok ⟨.colon, ⟨2, 3⟩⟩, .ok ⟨.identifier "e", ⟨2, 4⟩⟩, .ok ⟨.closeBrace, ⟨2, 5⟩⟩] := by cbv
  refine ⟨hlex, @parse_discards_damaged ⟨1, 3⟩ {} _ "b"
    [.ok ⟨.identifier "a", ⟨1, 1⟩⟩, .ok ⟨.openBrace, ⟨1, 2⟩⟩] [.ok ⟨.colon, ⟨1, 4⟩⟩] _ _ rfl hlex ?_ ?_⟩
  all_goals decide

-- The same string in front of the colon is passed over, and the declaration is kept.
theorem parse_keeps_damaged :
    ((Cursor.ofText "a\x7bb\"\n:c;d:e\x7d").lex true).1 =
      [.ok ⟨.identifier "a", ⟨1, 1⟩⟩, .ok ⟨.openBrace, ⟨1, 2⟩⟩, .ok ⟨.identifier "b", ⟨1, 3⟩⟩,
        .error ⟨.lexical .unterminatedString, ⟨1, 4⟩⟩, .ok ⟨.whitespace, ⟨1, 5⟩⟩,
        .ok ⟨.colon, ⟨2, 1⟩⟩, .ok ⟨.identifier "c", ⟨2, 2⟩⟩, .ok ⟨.semicolon, ⟨2, 3⟩⟩,
        .ok ⟨.identifier "d", ⟨2, 4⟩⟩, .ok ⟨.colon, ⟨2, 5⟩⟩, .ok ⟨.identifier "e", ⟨2, 6⟩⟩,
        .ok ⟨.closeBrace, ⟨2, 7⟩⟩] ∧
    ∃ parsed, parse {} "a\x7bb\"\n:c;d:e\x7d" = .ok parsed ∧
      ∃ d ∈ parsed.sheet.allDeclarations, d.position = ⟨1, 3⟩ := by
  have hpositions : (parse {} "a\x7bb\"\n:c;d:e\x7d").map
      (fun parsed => parsed.sheet.allDeclarations.map Declaration.position) =
        .ok [⟨1, 3⟩, ⟨2, 4⟩] := by cbv
  refine ⟨by cbv, ?_⟩
  cases hparse : parse {} "a\x7bb\"\n:c;d:e\x7d"
  case error => simp [hparse, Except.map] at hpositions
  case ok parsed =>
    have heq : parsed.sheet.allDeclarations.map Declaration.position = [⟨1, 3⟩, ⟨2, 4⟩] := by
      simpa [hparse, Except.map] using hpositions
    exact ⟨parsed, rfl, List.mem_map.mp (by simp [heq])⟩

end Sheet
end Stylesheet
