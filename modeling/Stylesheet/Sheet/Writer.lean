import Stylesheet.Sheet.Basic
/-!
The text of a style sheet in a format.
-/

namespace Stylesheet

namespace Node

/-- A body in braces, given its text one level deeper. An empty body has no white space. -/
def writeBody (l : Layout) (isEmpty : Bool) (body : String) : String :=
  l.space l.format.beforeBrace ++ "\x7b" ++
    (if isEmpty then "" else
      l.deeper.space l.format.beforeRules ++ body ++ l.space l.format.afterRules) ++ "\x7d"

/-- An at-rule in front of its body or semicolon. -/
def writeAtRule (name arguments : String) : String :=
  "@" ++ Text.Escaped.identifier name ++ if arguments.isEmpty then "" else " " ++ arguments

def writeSelectors (l : Layout) (selectors : List Selector) : String :=
  l.join l.format.betweenSelectors (selectors.map Selector.text)

mutual

def write (l : Layout) : Node Declaration → String
  | block b =>
    writeSelectors l b.selectors ++
      writeBody l b.rules.isEmpty (Declaration.writeAll l.deeper b.rules)
  | atSet name arguments rules =>
    writeAtRule name arguments ++ writeBody l rules.isEmpty (Declaration.writeAll l.deeper rules)
  | atBlock name arguments contents =>
    writeAtRule name arguments ++ writeBody l contents.isEmpty
      (l.deeper.join l.format.betweenBlocks (writeAll l.deeper contents))
  | atStatement name arguments => writeAtRule name arguments ++ ";"

def writeAll (l : Layout) : List (Node Declaration) → List String
  | [] => []
  | n :: ns => n.write l :: writeAll l ns

end

end Node

/-- The text of a style sheet. -/
def Sheet.write (l : Layout) (sheet : Sheet Declaration) : String :=
  l.join l.format.betweenBlocks (Node.writeAll l sheet)

/-- The text of a style sheet in the default format. -/
def Sheet.css (sheet : Sheet Declaration) : String :=
  Sheet.write {} sheet

end Stylesheet
