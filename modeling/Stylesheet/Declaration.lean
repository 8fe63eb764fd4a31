import Stylesheet.Text.Position
import Stylesheet.Value.Basic
/-!
Declarations: a property name, its value, and whether it is important.
-/

namespace Stylesheet

structure Declaration where
  name : String
  value : Value
  important : Bool := false
  position : Position := .nowhere

namespace Declaration

/-- Equality of declarations, wherever they come from. -/
def same (d e : Declaration) : Bool :=
  d.name == e.name && d.value.same e.value && d.important == e.important

/-- A declaration of another property in the place and with the importance of this one. -/
def derive (d : Declaration) (name : String) (value : Value) : Declaration :=
  { d with name, value }

/-- The declaration without its semicolon. -/
def write (l : Layout) (d : Declaration) : String :=
  Text.Escaped.identifier d.name ++ ":" ++ l.space l.format.afterName ++ d.value.write l ++
    if d.important then l.space l.format.beforeImportant ++ "!important" else ""

/-- The text in the default format. -/
def css (d : Declaration) : String :=
  d.write {} ++ ";"

/-- Declarations in a row. Whether the last one has its semicolon is up to the format. -/
def writeAll (l : Layout) : List Declaration → String
  | [] => ""
  | [d] => d.write l ++ if l.format.lastSemicolon then ";" else ""
  | d :: ds => d.write l ++ ";" ++ l.space l.format.betweenRules ++ writeAll l ds

/-- Whether two rows of declarations agree one by one. -/
def sameAll : List Declaration → List Declaration → Bool
  | d :: ds, e :: es => d.same e && sameAll ds es
  | [], [] => true
  | _, _ => false

end Declaration
end Stylesheet
