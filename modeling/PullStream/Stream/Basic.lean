import PullStream.Effect
import PullStream.Step

/-!
# Streams

A stream is a recipe: nothing runs when it is put together, and every cursor opened on it starts a
session of its own. A recipe is plain data. Streams that occur as elements are given by names, and a
`book` says which stream a name stands for; names may reach below any depth, so nesting without a
bottom is a recipe of finite size.
-/

set_option autoImplicit false

namespace PullStream

/-- A supplier of elements with a state of its own. A pull may panic and leave a changed state; a
supplier that knows how to move on without producing elements says so with `jump`, which answers
whether that many elements were left. One that promises to stay at its end is believed: it is asked
`again` there, and does whatever it does. No other is asked again. -/
structure Source (W σ α : Type) where
  pull : σ → W → Except Panic (Step α) × σ × W
  jump : Option (Nat → σ → W → Except Panic Bool × σ × W)
  again : Bool := false

/-- What a descent does with an element: pass it on, open the stream that it names, or both. -/
inductive Visit (ι α : Type) where
  | emit (a : α)
  | enter (i : ι)
  | emitAndEnter (a : α) (i : ι)

inductive Stream (W : Type) : Type → Type 1 where
  | empty {α : Type} : Stream W α
  | items {α : Type} (xs : Array α) : Stream W α
  | source {σ α : Type} (start : Act W σ) (src : Source W σ α) : Stream W α
  | fused {α : Type} (s : Stream W α) : Stream W α
  | deferred {ι α : Type} (start : Act W ι) (book : ι → Stream W α) : Stream W α
  | mapping {β α : Type} (f : β → Act W α) (s : Stream W β) : Stream W α
  | filtering {α : Type} (p : α → Act W Bool) (s : Stream W α) : Stream W α
  | choosing {β α : Type} (f : β → Act W (Option α)) (s : Stream W β) : Stream W α
  | joining {α : Type} (first second : Stream W α) : Stream W α
  | skipping {α : Type} (n : Nat) (s : Stream W α) : Stream W α
  | capping {α : Type} (n : Nat) (s : Stream W α) : Stream W α
  | deduplicating {κ α : Type} (eq : DecidableEq κ) (key : α → Act W κ) (s : Stream W α) :
      Stream W α
  | excluding {κ α : Type} (eq : DecidableEq κ) (key : α → Act W κ) (other s : Stream W α) :
      Stream W α
  | flattening {ι α : Type} (book : ι → Stream W α) (s : Stream W ι) : Stream W α
  | descending {ι β α : Type} (visit : Nat → β → Act W (Visit ι α)) (book : ι → Stream W β)
      (s : Stream W β) : Stream W α

/-- The stream is the shared empty one. A stream that turns out to hold no elements is not. -/
def Stream.knownEmpty {W α : Type} : Stream W α → Bool
  | .empty => true
  | _ => false

end PullStream
