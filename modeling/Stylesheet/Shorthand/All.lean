import Stylesheet.Shorthand.Background
import Stylesheet.Shorthand.Border
import Stylesheet.Shorthand.Font
import Stylesheet.Shorthand.Sides
/-!
All shorthands at once. A border expands to shorthands of its sides, so borders come first; the
order in which shorthands are created undoes that of expanding.
-/

namespace Stylesheet.RuleSet

def expandAll (rs : RuleSet) : Fresh RuleSet := do
  let rs ← expandBorder rs
  let rs ← expandSides rs
  let rs ← expandFont rs
  expandBackground rs

def createAll (rs : RuleSet) : Fresh RuleSet := do
  let rs ← createBackground rs
  let rs ← createSides rs
  let rs ← createBorder rs
  createFont rs

end Stylesheet.RuleSet
