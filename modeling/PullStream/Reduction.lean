import PullStream.Stream.Consume

/-!
# Reductions

Combining functions for folds. The least element is the first of its equals and the greatest the
last of its equals, in the order in which a fold visits them.
-/

set_option autoImplicit false

namespace PullStream.Reduction

variable {W α : Type}

def sum [Add α] (a b : α) : α := a + b

def product [Mul α] (a b : α) : α := a * b

def least (le : α → α → Bool) (a b : α) : α := if le a b then a else b

def greatest (le : α → α → Bool) (a b : α) : α := if le a b then b else a

theorem least_of_le {le : α → α → Bool} {a b : α} (h : le a b = true) : least le a b = a := by
  simp [least, h]

theorem greatest_of_le {le : α → α → Bool} {a b : α} (h : le a b = true) :
    greatest le a b = b := by
  simp [greatest, h]

/-- What a combining function makes of a stream from either end, without and with a start. -/
structure Folds (α : Type) where
  left : Option α
  right : Option α
  leftFrom : Option α
  rightFrom : Option α

def folds (fuel : Nat) (combine : α → α → α) (items : Array α) (init : Option α) :
    Run Unit (Folds α) :=
  let s : Stream Unit α := .ofArray items
  let f := fun a b => Act.done (combine a b)
  let withInit (fold : α → Run Unit α) : Run Unit (Option α) :=
    match init with
    | some a => do return some (← fold a)
    | none => return none
  do return {
    left := ← s.reduce fuel f
    right := ← s.reduceRight fuel f
    leftFrom := ← withInit fun a => s.reduceWith fuel a f
    rightFrom := ← withInit fun a => s.reduceRightWith fuel a f }

end PullStream.Reduction
