import CssLex.Token.Record

/-!
Matching of brackets by a stack of open groups. Every token gets a balance index:

* a bracket that is matched, the index of its partner;
* any other token inside a matched pair, the index of the closing bracket of the innermost such pair;
* any other token, its own index.

A closing bracket matches only the innermost group that is still open. If that group wants another bracket, the
closing bracket is an ordinary token of the group.
-/

namespace CssLex.Bracket

/-- A group that waits for its closing bracket. -/
structure Group where
  /-- The index of the opening bracket. -/
  opener : Nat
  /-- The kind that closes the group. -/
  closer : Kind
  /-- How many tokens were pending when the group was opened. -/
  mark : Nat
  deriving DecidableEq, Repr

/-- The groups that are open, innermost first, and the balance indices so far. -/
structure State where
  groups : List Group
  /-- The indices of the tokens in open groups that belong to no inner group, those of the innermost group last. -/
  pending : Array Nat
  balance : Array Nat
  deriving DecidableEq, Repr

/-- No group is open, and the balance indices are those given. -/
def State.start (balance : Array Nat) : State := ⟨[], #[], balance⟩

/-- Balances all members of a group with the token at `index`. -/
def assign (index : Nat) (members balance : Array Nat) : Array Nat :=
  members.foldl (fun balance member => balance.setIfInBounds member index) balance

/-- Closes the group `g`, around which `outer` are open, with the bracket at `index`. -/
def State.close (s : State) (g : Group) (outer : List Group) (index : Nat) : State where
  groups := outer
  pending := s.pending.shrink g.mark
  balance := assign index (s.pending.extract g.mark s.pending.size)
    ((s.balance.setIfInBounds g.opener index).setIfInBounds index g.opener)

/-- The state after the token at `index`, which is of kind `kind`. -/
def State.step (s : State) (index : Nat) (kind : Kind) : State :=
  match kind.closingPair?, s.groups with
  | some closer, groups => { s with groups := ⟨index, closer, s.pending.size⟩ :: groups }
  | none, [] => s
  | none, g :: outer =>
    if kind = g.closer then s.close g outer index else { s with pending := s.pending.push index }

/-- The state after tokens of which the first is at `index`. -/
def State.run (s : State) (index : Nat) : List Kind → State
  | [] => s
  | kind :: kinds => run (s.step index kind) (index + 1) kinds

@[simp] theorem size_assign (index : Nat) (members balance : Array Nat) :
    (assign index members balance).size = balance.size := by
  rw [assign, ← Array.foldl_toList]
  induction members.toList generalizing balance with
  | nil => rfl
  | cons member rest ih => rw [List.foldl_cons, ih, Array.size_setIfInBounds]

@[simp] theorem State.size_close (s : State) (g : Group) (outer : List Group) (index : Nat) :
    (s.close g outer index).balance.size = s.balance.size := by
  simp [close]

@[simp] theorem State.size_step (s : State) (index : Nat) (kind : Kind) :
    (s.step index kind).balance.size = s.balance.size := by
  unfold step
  split
  · rfl
  · rfl
  · split
    · exact State.size_close _ _ _ _
    · rfl

@[simp] theorem State.size_run (s : State) (index : Nat) (kinds : List Kind) :
    (s.run index kinds).balance.size = s.balance.size := by
  induction kinds generalizing s index with
  | nil => rfl
  | cons kind rest ih => rw [run, ih, size_step]

end CssLex.Bracket

namespace CssLex.Table

/-- The balance indices of all records. -/
def balances (t : Table) : Array Nat := t.records.map Record.balance

/-- The same records with their brackets linked; a record that belongs to no group keeps its balance index. -/
def link (t : Table) : Table :=
  let linked := (Bracket.State.start t.balances).run 0 t.kinds
  { t with records := t.records.zipWith (fun r balance => { r with balance }) linked.balance }

@[simp] theorem size_link (t : Table) : t.link.size = t.size := by
  simp [link, size, balances, Bracket.State.start]

end CssLex.Table
