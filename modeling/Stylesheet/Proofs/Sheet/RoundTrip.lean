import Mathlib
import Stylesheet.Proofs.Selector.Ordinary
import Stylesheet.Proofs.Sheet.Shaped
/-!
Reading back what was written. What is read from a text without a fault is read again, with the same
rule sets, from its own text, if the preludes and declarations in it are clean; and clean
declarations are read back from any of the three formats. Main statements: `Sheet.parse_css_of_parse`,
`Sheet.parse_write_block`.
-/

namespace Stylesheet

open Lexing

-- Reading that ends with the first fault.
def Settings.strict : Settings where
  lenient := false

-- A selector that is a name of letters is read back.
theorem SelectorsReadAs.of_letters {l : Layout} (hf : l.format.IsReadable) {s : String}
    (hn : s ≠ "") (hs : ∀ c ∈ s.toList, c.isAlpha) : SelectorsReadAs l [⟨s⟩] [⟨s⟩] := by
  have hne : s.toList ≠ [] := by simpa using hn
  have hwritten := identifierChars_letters hs
  have htext : (Node.writeSelectors l [⟨s⟩]).toList = s.toList := by
    simp [Node.writeSelectors, Layout.join]
  have hascii (c : Char) (hc : c ∈ s.toList) := Text.isAscii_of_isAlpha (hs c hc)
  have hname : isName s.toList := by
    simp only [isName, Bool.and_eq_true, List.all_eq_true, bne_iff_ne]
    refine ⟨⟨by simpa using hne, fun c hc h0 => ?_⟩, ?_⟩
    · have : c = '\x00' := Char.toNat_inj.mp h0
      exact absurd (hs c hc) (this ▸ by decide)
    · rw [Option.all_eq_true]
      intro c hc
      simp [hascii c (List.mem_of_head? hc)]
  refine ⟨.identifier s, blankTokens l.format.beforeBrace.toList, ⟨fun rest => ?_, ?_, ?_⟩,
    by simp, by simp, ?_⟩
  · have hbrace : Lexes ('{' :: rest) [] ('{' :: rest) := .done
    have hg : startsGap ('{' :: rest) = false := startsGap_cons (by decide) (by decide)
    have hstop : Stops ('{' :: rest) := Value.stops_cons (by decide)
    have hspace := Layout.lexes_spread hf hf.beforeBrace hg hbrace
    have := (lexes_identifier hname (Layout.stops_spread hf hf.beforeBrace (.inr hstop))).append hspace
    rw [htext, List.append_assoc]
    simpa [hwritten] using this
  · rw [htext, Text.isUnified_append, ← hwritten]
    exact ⟨Text.isUnified_identifierChars _, Value.isUnified_spread hf hf.beforeBrace⟩
  · rw [List.forall_mem_cons]
    refine ⟨rfl, fun t ht => ?_⟩
    unfold blankTokens at ht
    split at ht
    · cases ht
    · rw [List.mem_singleton.mp ht]
      rfl
  · have hprelude : ∃ blanks, (∀ c ∈ blanks, Text.isBlank c) ∧
        Reader.preludeText (.identifier s :: blankTokens l.format.beforeBrace.toList) =
          String.ofList (s.toList ++ blanks) := by
      unfold blankTokens
      split
      · exact ⟨[], List.forall_mem_nil _, by
          simp [Reader.preludeText, Token.text, Text.Escaped.identifier, hwritten]⟩
      · exact ⟨[' '], by decide, by
          simp [Reader.preludeText, Token.text, Text.Escaped.identifier, hwritten]⟩
    obtain ⟨blanks, hb, hp⟩ := hprelude
    rw [hp, Selector.listOfText_ordinary hne
      (fun c hc => Selector.isOrdinary_of_isAlpha (hs c hc)) hb, String.ofList_toList]

namespace Sheet

theorem sameSets_of_haveSets {sets : List (List Declaration)} {ns : Sheet Declaration}
    (h : HaveSets {} sets ns) : SameSets sets ns.ruleSets := by
  have hid (d : Declaration) : d.shorten {} = d := by
    rw [Declaration.shorten, Value.shorten_eq_self rfl]
  simpa [HaveSets, hid] using h

theorem parse_of_lex {settings : Settings} {text : String} {results : List Lexed}
    {finish : Position} {parsed : Parsed}
    (hl : (Cursor.ofText text).lex settings.multibyte = (results, finish))
    (h : ofLexed settings results finish = .ok parsed) : parse settings text = .ok parsed := by
  rw [parse, hl]
  exact h

-- What is read is read again from its text, rule by rule.
theorem parse_css_of_parse {text : String} {parsed : Parsed}
    (h : parse .strict text = .ok parsed) (hc : Node.AreClean {} parsed.sheet) :
    ∃ again, parse .strict parsed.sheet.css = .ok again ∧
      SameSets parsed.sheet.ruleSets again.sheet.ruleSets := by
  have hf : Format.IsReadable {} := Format.isReadable_of_mem List.mem_cons_self
  have hs := areShaped_of_parse h
  obtain ⟨again, hparse, hsets⟩ := @parse_write {} hf parsed.sheet hs hc .strict rfl
  exact ⟨⟨again, []⟩, hparse, sameSets_of_haveSets hsets⟩

theorem parse_css_of_parse_simple : ∃ parsed again, parse .strict "a\x7bb:c\x7d" = .ok parsed ∧
    parse .strict parsed.sheet.css = .ok again ∧
    SameSets parsed.sheet.ruleSets again.sheet.ruleSets := by
  have hlex : (Cursor.ofText "a\x7bb:c\x7d").lex true = ([.ok ⟨.identifier "a", ⟨1, 1⟩⟩,
      .ok ⟨.openBrace, ⟨1, 2⟩⟩, .ok ⟨.identifier "b", ⟨1, 3⟩⟩, .ok ⟨.colon, ⟨1, 4⟩⟩,
      .ok ⟨.identifier "c", ⟨1, 5⟩⟩, .ok ⟨.closeBrace, ⟨1, 6⟩⟩], ⟨1, 7⟩) := by
    cbv
  have hparse : parse .strict "a\x7bb:c\x7d" =
      .ok ⟨[.block ⟨[⟨"a"⟩], [⟨"b", .keyword "c", false, ⟨1, 3⟩⟩], 1⟩], []⟩ :=
    parse_of_lex hlex rfl
  have hf : Format.IsReadable {} := Format.isReadable_of_mem List.mem_cons_self
  obtain ⟨again, hagain, hsame⟩ := parse_css_of_parse hparse
    ⟨⟨⟨_, .of_letters hf (by decide) (by decide)⟩, by decide⟩, trivial⟩
  exact ⟨_, again, hparse, hagain, hsame⟩

-- A slash that was escaped is written as one that joins its neighbors.
theorem parse_css_differs : ∃ parsed again, parse .strict "a\x7bb:c \\/ d\x7d" = .ok parsed ∧
    parse .strict parsed.sheet.css = .ok again ∧
    ¬SameSets parsed.sheet.ruleSets again.sheet.ruleSets := by
  let sheet (v : Value) (p : Position) : Sheet Declaration :=
    [.block ⟨[⟨"a"⟩], [⟨"b", v, false, p⟩], 1⟩]
  let row : Value := .list .space [.keyword "c", .keyword "/", .keyword "d"]
  have hlex : (Cursor.ofText "a\x7bb:c \\/ d\x7d").lex true = ([.ok ⟨.identifier "a", ⟨1, 1⟩⟩,
      .ok ⟨.openBrace, ⟨1, 2⟩⟩, .ok ⟨.identifier "b", ⟨1, 3⟩⟩, .ok ⟨.colon, ⟨1, 4⟩⟩,
      .ok ⟨.identifier "c", ⟨1, 5⟩⟩, .ok ⟨.whitespace, ⟨1, 6⟩⟩, .ok ⟨.identifier "/", ⟨1, 7⟩⟩,
      .ok ⟨.whitespace, ⟨1, 9⟩⟩, .ok ⟨.identifier "d", ⟨1, 10⟩⟩,
      .ok ⟨.closeBrace, ⟨1, 11⟩⟩], ⟨1, 12⟩) := by
    cbv
  have hparse : parse .strict "a\x7bb:c \\/ d\x7d" = .ok ⟨sheet row ⟨1, 3⟩, []⟩ := parse_of_lex hlex rfl
  have hcss : Sheet.css (sheet row ⟨1, 3⟩) = "a \x7bb: c / d;\x7d" := by decide
  have hlex : (Cursor.ofText "a \x7bb: c / d;\x7d").lex true = ([.ok ⟨.identifier "a", ⟨1, 1⟩⟩,
      .ok ⟨.whitespace, ⟨1, 2⟩⟩, .ok ⟨.openBrace, ⟨1, 3⟩⟩, .ok ⟨.identifier "b", ⟨1, 4⟩⟩,
      .ok ⟨.colon, ⟨1, 5⟩⟩, .ok ⟨.whitespace, ⟨1, 6⟩⟩, .ok ⟨.identifier "c", ⟨1, 7⟩⟩,
      .ok ⟨.whitespace, ⟨1, 8⟩⟩, .ok ⟨.slash, ⟨1, 9⟩⟩, .ok ⟨.whitespace, ⟨1, 10⟩⟩,
      .ok ⟨.identifier "d", ⟨1, 11⟩⟩, .ok ⟨.semicolon, ⟨1, 12⟩⟩,
      .ok ⟨.closeBrace, ⟨1, 13⟩⟩], ⟨1, 14⟩) := by
    cbv
  have hagain : parse .strict "a \x7bb: c / d;\x7d" =
      .ok ⟨sheet (.pair (.keyword "c") (.keyword "d")) ⟨1, 4⟩, []⟩ := parse_of_lex hlex rfl
  refine ⟨_, _, hparse, hcss ▸ hagain, fun h => ?_⟩
  cases h
  case cons hsame _ => exact absurd hsame (by decide)

-- A block of clean declarations is read back from each of the three formats, colors as short as the
-- format has them.
theorem parse_write_block {f : Format} (hf : f ∈ [{}, .compact, .pretty]) {b : Block Declaration}
    (hs : SelectorsReadAs ⟨f, 0⟩ b.selectors b.selectors) (hd : ∀ d ∈ b.rules, d.IsReadable) :
    ∃ rules line, parse .strict (write ⟨f, 0⟩ [.block b]) =
        .ok ⟨[.block ⟨b.selectors, rules, line⟩], []⟩ ∧
      Declaration.sameAll (b.rules.map (·.shorten f)) rules ∧
      (f.shortHex = false → Declaration.sameAll b.rules rules) := by
  have hread : f.IsReadable := Format.isReadable_of_mem hf
  have hreads := @Node.readsTo_block ⟨f, 0⟩ hread b b.selectors hs hd
  obtain ⟨sheet, hparse, rules, line, hsheet, hsame⟩ :=
    @parse_of_readsTo _ _ hreads .strict rfl
  subst hsheet
  refine ⟨rules, line, ?_, hsame, fun hshort => ?_⟩
  · simpa [write, Node.writeAll, Layout.join] using hparse
  · have hid (d : Declaration) : d.shorten f = d := by
      rw [Declaration.shorten, Value.shorten_eq_self hshort]
    simpa [hid] using hsame

theorem parse_write_block_compact :
    let b : Block Declaration := ⟨[⟨"p"⟩], [
      ⟨"font", .list .comma [.list .space [.keyword "bold",
          .pair (.size ⟨.finite (.zero true), some "px"⟩) (.keyword "normal"), .keyword "Foo Bar"],
        .string "serif"], false, ⟨0, 0⟩⟩,
      ⟨"background", .list .space [.hex "ffffff", .url "a b.png", .function .plain "calc"
          (some (.list .space [.size ⟨.finite (.zero false), some "%"⟩, .keyword "-",
            .size ⟨.finite (.zero false), none⟩]))], true, ⟨0, 0⟩⟩], 0⟩
    SelectorsReadAs ⟨.compact, 0⟩ b.selectors b.selectors ∧ (∀ d ∈ b.rules, d.IsReadable) ∧
      ∃ rules line, parse .strict (write ⟨.compact, 0⟩ [.block b]) =
          .ok ⟨[.block ⟨b.selectors, rules, line⟩], []⟩ ∧
        Declaration.sameAll (b.rules.map (·.shorten .compact)) rules := by
  intro b
  have hmem : Format.compact ∈ [{}, Format.compact, Format.pretty] := by simp
  have hs : SelectorsReadAs ⟨.compact, 0⟩ b.selectors b.selectors :=
    .of_letters (Format.isReadable_of_mem hmem) (by decide) (by decide)
  have hd : ∀ d ∈ b.rules, d.IsReadable := by
    simp only [b, List.forall_mem_cons]
    exact ⟨⟨⟨by decide, by decide⟩, by decide⟩, ⟨⟨by decide, by decide⟩, by decide⟩,
      List.forall_mem_nil _⟩
  obtain ⟨rules, line, hparse, hsame, _⟩ := parse_write_block hmem hs hd
  exact ⟨hs, hd, rules, line, hparse, hsame⟩

end Sheet
end Stylesheet
