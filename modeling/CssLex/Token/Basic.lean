import CssLex.Token.Kind

namespace CssLex

/-- A token's kind and its length in bytes. Tokens leave no gaps, so each starts where the one before it stops. -/
structure Token where
  kind : Kind
  length : Nat
  deriving DecidableEq, Repr, Inhabited

namespace Token

/-- The same kind of token, `n` bytes longer. -/
def extend (t : Token) (n : Nat) : Token := { t with length := t.length + n }

@[simp] theorem extend_kind (t : Token) (n : Nat) : (t.extend n).kind = t.kind := rfl

@[simp] theorem extend_length (t : Token) (n : Nat) : (t.extend n).length = t.length + n := rfl

@[simp] theorem extend_extend (t : Token) (m n : Nat) : (t.extend m).extend n = t.extend (m + n) := by
  simp only [extend, Nat.add_assoc]

end Token
end CssLex
