import PullStream.Effect

/-!
# Steps

What a cursor reports when it is stepped: an element, or that the end was reached. A step is an
option that says what its absence means, and `ofOption_toOption` is the exact correspondence.
-/

set_option autoImplicit false

namespace PullStream

inductive Step (α : Type) where
  | yield (a : α)
  | done
deriving DecidableEq, Repr

namespace Step

variable {α β : Type}

def isDone : Step α → Bool
  | yield _ => false
  | done => true

def toOption : Step α → Option α
  | yield a => some a
  | done => none

def ofOption : Option α → Step α
  | some a => yield a
  | none => done

def map (f : α → β) : Step α → Step β
  | yield a => yield (f a)
  | done => done

def traverse {W : Type} (f : α → Act W β) : Step α → Act W (Step β)
  | yield a => do return yield (← f a)
  | done => return done

def debugText (text : α → String) : Step α → String
  | yield a => "Yield(" ++ text a ++ ")"
  | done => "Done"

@[simp] theorem ofOption_toOption (s : Step α) : ofOption s.toOption = s := by cases s <;> rfl

@[simp] theorem toOption_ofOption (o : Option α) : (ofOption o).toOption = o := by cases o <;> rfl

theorem toOption_map (f : α → β) (s : Step α) : (s.map f).toOption = s.toOption.map f := by
  cases s <;> rfl

theorem isDone_iff (s : Step α) : s.isDone = true ↔ s.toOption = none := by
  cases s <;> simp [isDone, toOption]

end Step

end PullStream
