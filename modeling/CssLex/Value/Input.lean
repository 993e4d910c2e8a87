import CssLex.Stream.Offset
import CssLex.Value.Component

namespace CssLex

/-- Something to look ahead in and to take components from. -/
class Input (σ : Type) where
  /-- The component `offset` places ahead; the next one is at offset zero. -/
  peek? (input : σ) (offset : Nat) : Option Component
  /-- Takes one component. At the end there is none to take, and the input stays as it is. -/
  take (input : σ) : σ

/-- Takes `count` components. -/
def Input.takeMany {σ : Type} [Input σ] : Nat → σ → σ
  | 0, input => input
  | count + 1, input => takeMany count (Input.take input)

/-- A list of components of which some are taken. -/
structure ComponentInput where
  components : List Component
  /-- How many are taken. -/
  taken : Nat
  deriving DecidableEq, Repr

namespace ComponentInput

/-- A list of which nothing is taken yet. -/
def ofList (components : List Component) : ComponentInput := ⟨components, 0⟩

/-- The components that are not taken. -/
def remaining (input : ComponentInput) : List Component := input.components.drop input.taken

instance : Input ComponentInput where
  peek? input offset := input.components[input.taken + offset]?
  take input :=
    if input.taken < input.components.length then { input with taken := input.taken + 1 } else input

end ComponentInput

namespace Stream

/-- The token `offset` places after the cursor as a component. The current token is never spaced; a later one is if
the token right before it is whitespace or a comment. -/
def component? (s : Stream) (offset : Nat) : Option Component :=
  (s.peek? offset).map fun r =>
    Component.ofText (s.textOf r) (decide (0 < offset) && (s.kindAhead (offset - 1)).isTrivia)

/-- The same for an offset in a word. -/
def componentBy? (s : Stream) (offset : UInt64) : Option Component :=
  (s.peekBy? offset).map fun r =>
    Component.ofText (s.textOf r) (decide (0 < offset) && (s.kindBy (offset - 1)).isTrivia)

instance : Input Stream where
  peek? := component?
  take := next

end Stream
end CssLex
