import Idula.Library.Precedence

/-! Parentheses: an expression printed with those that its grouping needs is read back, and read
as another one when a pair of them is left out. -/
namespace Idula.Library.Precedence
variable {α κ : Type*}

variable {ops : Operators κ} {e e' l r : Expr α κ} {k : κ} {ahead : Option Int} {p : Int} {ts us vs : List (Token α κ)}

def Token.isParen : Token α κ → Bool
  | .lparen | .rparen => true
  | .atom _ | .op _ => false

/-- The tokens of a text that are no parentheses. -/
def symbols (ts : List (Token α κ)) : List (Token α κ) := ts.filter fun t => !t.isParen

@[simp] private theorem symbols_nil : symbols ([] : List (Token α κ)) = [] := rfl

end Idula.Library.Precedence
