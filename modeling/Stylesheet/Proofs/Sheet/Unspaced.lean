import Stylesheet.Sheet.Writer
/-!
Formats that differ in white space only. White space is any class of characters that the line end
is in. A spacing is written the same at any depth but for white space, so that two formats write a
sheet the same but for white space if their spacings are. Main statement:
`Sheet.unspaced_write_of_sameButWhite`.
-/

namespace Stylesheet

variable {white : Char → Bool}

-- A text without its white space.
def unspaced (white : Char → Bool) (s : String) : List Char :=
  s.toList.filter (!white ·)

-- A format that begins its lines with white space only.
structure Format.BreaksWhite (white : Char → Bool) (f : Format) : Prop where
  lineEnding : unspaced white f.lineEnding = []
  indentation : unspaced white f.indentation = []

-- Formats that begin their lines with white space and are otherwise the same but for white space.
structure Format.SameButWhite (white : Char → Bool) (f g : Format) : Prop where
  left : f.BreaksWhite white
  right : g.BreaksWhite white
  afterName : unspaced white f.afterName = unspaced white g.afterName
  beforeRules : unspaced white f.beforeRules = unspaced white g.beforeRules
  betweenRules : unspaced white f.betweenRules = unspaced white g.betweenRules
  afterRules : unspaced white f.afterRules = unspaced white g.afterRules
  betweenBlocks : unspaced white f.betweenBlocks = unspaced white g.betweenBlocks
  beforeBrace : unspaced white f.beforeBrace = unspaced white g.beforeBrace
  betweenSelectors : unspaced white f.betweenSelectors = unspaced white g.betweenSelectors
  comma : unspaced white f.comma = unspaced white g.comma
  blank : unspaced white f.blank = unspaced white g.blank
  slash : unspaced white f.slash = unspaced white g.slash
  beforeImportant : unspaced white f.beforeImportant = unspaced white g.beforeImportant
  lastSemicolon : f.lastSemicolon = g.lastSemicolon
  shortHex : f.shortHex = g.shortHex

theorem unspaced_append (s t : String) :
    unspaced white (s ++ t) = unspaced white s ++ unspaced white t := by
  simp [unspaced]

theorem unspaced_intercalate (s : String) (texts : List String) :
    unspaced white (s.intercalate texts) =
      (unspaced white s).intercalate (texts.map (unspaced white)) := by
  induction texts
  case nil => rfl
  case cons text texts ih =>
    cases texts
    case nil => simp
    case cons text' texts =>
      rw [String.intercalate_cons_cons, unspaced_append, unspaced_append, ih]
      simp [List.intercalate_cons_cons]

/-! ### Spacings -/

namespace Layout

variable {l m : Layout} {s t : String} {texts texts' : List String}

theorem filter_lineBreak (h : l.format.BreaksWhite white) :
    l.lineBreak.filter (!white ·) = [] := by
  have hending : l.format.lineEnding.toList.filter (!white ·) = [] := h.lineEnding
  have hindentation : l.format.indentation.toList.filter (!white ·) = [] := h.indentation
  simp only [lineBreak, List.filter_append, hending, List.filter_flatten, List.map_replicate,
    hindentation, List.flatten_replicate_nil, List.append_nil]

-- A line end is white space, and so is what is written for it.
theorem unspaced_space (hn : white '\n') (h : l.format.BreaksWhite white) :
    unspaced white (l.space s) = unspaced white s := by
  rw [unspaced, space, String.toList_ofList, unspaced]
  induction s.toList
  case nil => rfl
  case cons c cs ih =>
    rw [List.flatMap_cons, List.filter_append, ih]
    split
    case isTrue hc => simp [hc, hn, filter_lineBreak h]
    case isFalse => rw [← List.filter_append, List.singleton_append]

theorem unspaced_space_congr (hn : white '\n') (h : Format.SameButWhite white l.format m.format)
    (hs : unspaced white s = unspaced white t) :
    unspaced white (l.space s) = unspaced white (m.space t) := by
  rw [unspaced_space hn h.left, unspaced_space hn h.right, hs]

theorem unspaced_join_congr (hn : white '\n') (h : Format.SameButWhite white l.format m.format)
    (hs : unspaced white s = unspaced white t)
    (htexts : texts.map (unspaced white) = texts'.map (unspaced white)) :
    unspaced white (l.join s texts) = unspaced white (m.join t texts') := by
  rw [join, join, unspaced_intercalate, unspaced_intercalate, unspaced_space_congr hn h hs, htexts]

end Layout

/-! ### Sheets -/

open Layout (unspaced_space_congr unspaced_join_congr)

variable {l m : Layout}

namespace Value

mutual

theorem unspaced_write (hn : white '\n') (h : Format.SameButWhite white l.format m.format)
    (v : Value) : unspaced white (v.write l) = unspaced white (v.write m) := by
  match v with
  | size _ | keyword _ | string _ | url _ => rfl
  | hex digits => rw [write, write, h.shortHex]
  | function _ name arguments =>
    simp only [write, unspaced_append, unspaced_writeArguments hn h arguments]
  | pair first second =>
    simp only [write, unspaced_append, unspaced_space_congr hn h h.slash, unspaced_write hn h first,
      unspaced_write hn h second]
  | list separator items =>
    have hspacing : unspaced white (spacing l.format separator) =
        unspaced white (spacing m.format separator) := by
      cases separator
      case space => exact h.blank
      case comma => exact h.comma
    exact unspaced_join_congr hn h hspacing (unspaced_writeItems hn h items)

theorem unspaced_writeArguments (hn : white '\n')
    (h : Format.SameButWhite white l.format m.format) (arguments : Option Value) :
    unspaced white (writeArguments l arguments) = unspaced white (writeArguments m arguments) := by
  match arguments with
  | some v => exact unspaced_write hn h v
  | none => rfl

theorem unspaced_writeItems (hn : white '\n') (h : Format.SameButWhite white l.format m.format)
    (items : List Value) :
    (writeItems l items).map (unspaced white) = (writeItems m items).map (unspaced white) := by
  match items with
  | v :: vs =>
    rw [writeItems, writeItems, List.map_cons, List.map_cons, unspaced_write hn h v,
      unspaced_writeItems hn h vs]
  | [] => rfl

end

end Value

namespace Declaration

theorem unspaced_write (hn : white '\n') (h : Format.SameButWhite white l.format m.format)
    (d : Declaration) : unspaced white (d.write l) = unspaced white (d.write m) := by
  rw [write, write]
  cases d.important <;>
    simp only [unspaced_append, unspaced_space_congr hn h h.afterName,
      unspaced_space_congr hn h h.beforeImportant, Value.unspaced_write hn h, if_true,
      Bool.false_eq_true, if_false]

theorem unspaced_writeAll (hn : white '\n') (h : Format.SameButWhite white l.format m.format)
    (ds : List Declaration) :
    unspaced white (writeAll l ds) = unspaced white (writeAll m ds) := by
  match ds with
  | [] => rfl
  | [d] => simp only [writeAll, unspaced_append, unspaced_write hn h d, h.lastSemicolon]
  | d :: e :: ds =>
    simp only [writeAll, unspaced_append, unspaced_write hn h d,
      unspaced_space_congr hn h h.betweenRules, unspaced_writeAll hn h (e :: ds)]

end Declaration

namespace Node

theorem unspaced_writeBody (hn : white '\n') (h : Format.SameButWhite white l.format m.format)
    (isEmpty : Bool) {body body' : String} (hbody : unspaced white body = unspaced white body') :
    unspaced white (writeBody l isEmpty body) = unspaced white (writeBody m isEmpty body') := by
  have hbefore : unspaced white (l.deeper.space l.format.beforeRules) =
      unspaced white (m.deeper.space m.format.beforeRules) :=
    unspaced_space_congr hn h h.beforeRules
  cases isEmpty <;>
    simp only [writeBody, unspaced_append, unspaced_space_congr hn h h.beforeBrace, hbefore, hbody,
      unspaced_space_congr hn h h.afterRules, if_true, Bool.false_eq_true, if_false]

theorem unspaced_writeSelectors (hn : white '\n')
    (h : Format.SameButWhite white l.format m.format) (selectors : List Selector) :
    unspaced white (writeSelectors l selectors) = unspaced white (writeSelectors m selectors) :=
  unspaced_join_congr hn h h.betweenSelectors rfl

mutual

-- The layouts need not be at the same depth.
theorem unspaced_write {l m : Layout} (hn : white '\n')
    (h : Format.SameButWhite white l.format m.format) (n : Node Declaration) :
    unspaced white (n.write l) = unspaced white (n.write m) := by
  have hdeeper : Format.SameButWhite white l.deeper.format m.deeper.format := h
  match n with
  | block b =>
    have hbody := Declaration.unspaced_writeAll hn hdeeper b.rules
    rw [write, write, unspaced_append, unspaced_append, unspaced_writeSelectors hn h,
      unspaced_writeBody hn h _ hbody]
  | atSet name arguments rules =>
    have hbody := Declaration.unspaced_writeAll hn hdeeper rules
    rw [write, write, unspaced_append, unspaced_append, unspaced_writeBody hn h _ hbody]
  | atBlock name arguments contents =>
    have hbody := unspaced_join_congr hn hdeeper h.betweenBlocks
      (unspaced_writeAll hn hdeeper contents)
    rw [write, write, unspaced_append, unspaced_append, unspaced_writeBody hn h _ hbody]
  | atStatement name arguments => rfl

theorem unspaced_writeAll {l m : Layout} (hn : white '\n')
    (h : Format.SameButWhite white l.format m.format) (ns : List (Node Declaration)) :
    (writeAll l ns).map (unspaced white) = (writeAll m ns).map (unspaced white) := by
  match ns with
  | [] => rfl
  | n :: ns =>
    rw [writeAll, writeAll, List.map_cons, List.map_cons, unspaced_write hn h n,
      unspaced_writeAll hn h ns]

end

end Node

namespace Sheet

-- Formats that are the same but for white space write a sheet the same but for white space.
theorem unspaced_write_of_sameButWhite {f g : Format} (hn : white '\n') (h : f.SameButWhite white g)
    (sheet : Sheet Declaration) :
    unspaced white (write { format := f } sheet) = unspaced white (write { format := g } sheet) :=
  unspaced_join_congr hn h h.betweenBlocks (Node.unspaced_writeAll hn h sheet)

theorem unspaced_write_pretty :
    let f := { Format.pretty with lineEnding := "\r\n", comma := ",", slash := " /\n" }
    let value := Value.pair (.keyword "large") (.list .comma [.keyword "serif", .string "a b"])
    let rules := [{ name := "font", value, important := true }]
    let sheet := [Node.atBlock "media" "print" [.block { selectors := [⟨"a"⟩], rules }]]
    Text.isBlank '\n' ∧ f.SameButWhite Text.isBlank {} ∧
      unspaced Text.isBlank (write { format := f } sheet) =
        unspaced Text.isBlank (write {} sheet) :=
  have h : Format.SameButWhite Text.isBlank
      { Format.pretty with lineEnding := "\r\n", comma := ",", slash := " /\n" } {} := by
    refine ⟨⟨?_, ?_⟩, ⟨?_, ?_⟩, ?_, ?_, ?_, ?_, ?_, ?_, ?_, ?_, ?_, ?_, ?_, ?_, ?_⟩ <;> decide
  ⟨by decide, h, unspaced_write_of_sameButWhite (by decide) h _⟩

end Sheet
end Stylesheet
