import Teal.Expr

/-!
# Chains of operators

A chain `a ∘ b ∘ c …` is grouped while it is read from left to right. The operators that still
wait for their right operand stand on a stack, the tightest on top; a new operator first closes
those that bind more tightly than it.

## Main definitions

* `Waiting`: an operator that waits for its right operand.
* `Waiting.push`: a new operator after an operand.
* `Waiting.closeAll`: the expression of a chain that has ended.
-/

namespace Teal

/-- An operator with its left operand, waiting for the right one. -/
structure Waiting where
  left : Expr
  op : BinaryOp

namespace Waiting

def close (w : Waiting) (right : Expr) : Expr :=
  .binary w.left.loc w.op w.left right

def closeAll : List Waiting → Expr → Expr
  | [], operand => operand
  | w :: rest, operand => closeAll rest (w.close operand)

/-- The stack after an operand and a new operator. There is none when the operator would follow
one of its own power and that power does not chain. -/
def push (op : BinaryOp) : List Waiting → Expr → Option (List Waiting)
  | [], operand => some [⟨operand, op⟩]
  | w :: rest, operand =>
    if op.power < w.op.power then push op rest (w.close operand)
    else if w.op.power < op.power then some (⟨operand, op⟩ :: w :: rest)
    else match op.grouping with
      | .left => push op rest (w.close operand)
      | .right => some (⟨operand, op⟩ :: w :: rest)
      | .never => none

end Waiting

end Teal
