import Stylesheet.Token.Lexer
/-!
Tokens and diagnostics wherever they stand. Two texts that differ in where things stand are compared
with all positions erased.
-/

namespace Stylesheet

def Placed.unplaced (t : Placed) : Placed :=
  { t with position := .nowhere }

def Diagnostic.unplaced (d : Diagnostic) : Diagnostic :=
  { d with position := .nowhere }

@[simp] theorem Placed.token_unplaced (t : Placed) : t.unplaced.token = t.token :=
  rfl

@[simp] theorem Placed.position_unplaced (t : Placed) : t.unplaced.position = .nowhere :=
  rfl

@[simp] theorem Diagnostic.unplaced_atToken (fault : SyntaxFault) (p : Position) :
    (Diagnostic.atToken fault p).unplaced = .atToken fault .nowhere :=
  rfl

-- A result of the lexer, wherever it stands.
def Cursor.unplaced : Lexed → Lexed
  | .ok t => .ok t.unplaced
  | .error d => .error d.unplaced

-- What a result is, wherever the fault in its stead is.
def Diagnostic.unplacedResult {α β : Type} (f : α → β) :
    Except Diagnostic α → Except Diagnostic β
  | .ok a => .ok (f a)
  | .error d => .error d.unplaced

namespace Diagnostic

variable {α β γ δ : Type} {f : α → β}

@[simp] theorem unplacedResult_ok (a : α) : unplacedResult f (.ok a) = .ok (f a) :=
  rfl

@[simp] theorem unplacedResult_error (d : Diagnostic) :
    unplacedResult f (.error d) = .error d.unplaced :=
  rfl

theorem toOption_unplacedResult (x : Except Diagnostic α) :
    (unplacedResult f x).toOption = x.toOption.map f := by
  cases x <;> rfl

theorem unplacedResult_bind {g : γ → δ} {k : α → Except Diagnostic γ}
    {k' : β → Except Diagnostic δ} (h : ∀ a, k' (f a) = unplacedResult g (k a))
    (x : Except Diagnostic α) : unplacedResult f x >>= k' = unplacedResult g (x >>= k) := by
  cases x
  case error => rfl
  case ok a => exact h a

theorem unplacedResult_map {g : γ → δ} {k : α → γ} {k' : β → δ} (h : ∀ a, k' (f a) = g (k a))
    (x : Except Diagnostic α) : (unplacedResult f x).map k' = unplacedResult g (x.map k) := by
  cases x
  case error => rfl
  case ok a => exact congrArg Except.ok (h a)

end Diagnostic
end Stylesheet
