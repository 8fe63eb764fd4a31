import Stylesheet.Format
import Stylesheet.Proofs.Token.Pieces
/-!
Formats whose texts are read back. The spacings of such a format are of blanks, tabs and line ends,
and what must be between two pieces of a text is there. Main statements: `Layout.lexes_spread`, and
that the three formats are of this kind.
-/

namespace Stylesheet

open Lexing

def isSpacing (cs : List Char) : Bool :=
  cs.all [' ', '\t', '\n'].contains

-- What may be between the items of a comma list.
def isListSpacing : List Char → Bool
  | ',' :: cs => isSpacing cs
  | _ => false

-- A format that separates what it writes as the lexer does.
structure Format.IsReadable (f : Format) : Prop where
  afterName : isSpacing f.afterName.toList
  beforeRules : isSpacing f.beforeRules.toList
  betweenRules : isSpacing f.betweenRules.toList
  afterRules : isSpacing f.afterRules.toList
  betweenBlocks : isSpacing f.betweenBlocks.toList
  beforeBrace : isSpacing f.beforeBrace.toList
  beforeImportant : isSpacing f.beforeImportant.toList
  indentation : isSpacing f.indentation.toList
  comma : isListSpacing f.comma.toList
  blank : isSpacing f.blank.toList
  blank_ne_nil : f.blank.toList ≠ []
  slash : f.slash = "/"
  lineEnding : isSpacing f.lineEnding.toList
  lineEnding_ne_nil : f.lineEnding.toList ≠ []

theorem Format.isReadable_of_mem {f : Format} (h : f ∈ [{}, compact, pretty]) : f.IsReadable := by
  simp only [List.mem_cons, List.not_mem_nil, or_false] at h
  rcases h with rfl | rfl | rfl <;> constructor <;> decide

-- The token of a spacing, if it is not empty.
def blankTokens (spacing : List Char) : List Token :=
  if spacing.isEmpty then [] else [.whitespace]

theorem isSpacing_append {cs ds : List Char} : isSpacing (cs ++ ds) ↔ isSpacing cs ∧ isSpacing ds := by
  simp [isSpacing]

theorem of_isSpacing {cs : List Char} (h : isSpacing cs) : ∀ c ∈ cs, c ∈ stops ∧ Text.isBlank c := by
  intro c hc
  simp only [isSpacing, List.all_eq_true, List.contains_eq_mem, decide_eq_true_eq] at h
  exact (by decide : ∀ c ∈ [' ', '\t', '\n'], c ∈ stops ∧ Text.isBlank c) c (h c hc)

theorem stops_append {cs rest : List Char} (h : isSpacing cs) (hn : cs ≠ [] ∨ Stops rest) :
    Stops (cs ++ rest) := by
  cases cs
  case nil => simpa using hn
  case cons c cs =>
    intro d hd
    cases hd
    exact (of_isSpacing h c List.mem_cons_self).1

theorem lexes_append {cs ds rest : List Char} {ts : List Token} (h : isSpacing cs)
    (hg : startsGap ds = false) (ht : Lexes ds ts rest) :
    Lexes (cs ++ ds) (blankTokens cs ++ ts) rest := by
  cases cs
  case nil => exact ht
  case cons c cs =>
    exact .blank (List.cons_ne_nil _ _) (fun d hd => (of_isSpacing h d hd).2) hg ht

namespace Layout

variable {l : Layout} {cs ds rest : List Char} {ts : List Token}

-- The characters of a spacing of the format.
def spread (l : Layout) (cs : List Char) : List Char :=
  cs.flatMap fun c => if c = '\n' then l.lineBreak else [c]

theorem toList_space (s : String) : (l.space s).toList = l.spread s.toList := by
  simp [space, spread]

theorem isSpacing_lineBreak (hf : l.format.IsReadable) :
    isSpacing l.lineBreak ∧ l.lineBreak ≠ [] := by
  refine ⟨?_, by simp [lineBreak, hf.lineEnding_ne_nil]⟩
  rw [lineBreak, isSpacing_append]
  refine ⟨hf.lineEnding, ?_⟩
  have hi := hf.indentation
  simp only [isSpacing, List.all_eq_true] at hi ⊢
  intro c hc
  simp only [List.mem_flatten, List.mem_replicate] at hc
  obtain ⟨_, ⟨_, hcs⟩, hc⟩ := hc
  exact hi c (hcs ▸ hc)

theorem isSpacing_spread (hf : l.format.IsReadable) (h : isSpacing cs) :
    isSpacing (l.spread cs) := by
  have hl := (isSpacing_lineBreak hf).1
  simp only [isSpacing, spread, List.all_flatMap, List.all_eq_true] at h ⊢
  intro c hc
  split
  · simpa [isSpacing] using hl
  · simpa using h c hc

theorem spread_isEmpty (hf : l.format.IsReadable) : (l.spread cs).isEmpty = cs.isEmpty := by
  have hl := (isSpacing_lineBreak hf).2
  cases cs
  case nil => rfl
  case cons c cs =>
    rw [spread, List.flatMap_cons]
    split <;> simp [hl]

theorem lexes_spread (hf : l.format.IsReadable) (h : isSpacing cs) (hg : startsGap ds = false)
    (ht : Lexes ds ts rest) : Lexes (l.spread cs ++ ds) (blankTokens cs ++ ts) rest := by
  have := lexes_append (isSpacing_spread hf h) hg ht
  rwa [blankTokens, spread_isEmpty hf] at this

theorem stops_spread (hf : l.format.IsReadable) (h : isSpacing cs) (hn : cs ≠ [] ∨ Stops rest) :
    Stops (l.spread cs ++ rest) := by
  refine stops_append (isSpacing_spread hf h) (hn.imp_left fun hn => ?_)
  intro he
  have := @spread_isEmpty l cs hf
  rw [he] at this
  exact hn (List.isEmpty_iff.mp this.symm)

theorem spread_cons {c : Char} (h : c ≠ '\n') : l.spread (c :: cs) = c :: l.spread cs := by
  simp [spread, h]

theorem toList_join_cons {s : String} {text : String} {texts : List String} (hn : texts ≠ []) :
    (l.join s (text :: texts)).toList =
      text.toList ++ (l.spread s.toList ++ (l.join s texts).toList) := by
  cases texts
  case nil => contradiction
  case cons => simp [join, String.intercalate_cons_cons, toList_space]

end Layout
end Stylesheet
