import PullStream.Cursor.Basic

/-!
# Driving a cursor

Moves are repeated until they amount to a whole answer. Every loop here spends one unit of fuel per
move, and `none` says that the fuel ran out; a cursor that discards elements without end has no
answer at any amount of it. All other results come with the cursor and the world as they were left,
also after a panic.
-/

set_option autoImplicit false

namespace PullStream

/-- What a consumer does with an element: go on, or answer. -/
inductive Verdict (β ρ : Type) where
  | more (b : β)
  | stop (r : ρ)

namespace Cursor

variable {W α β ρ : Type}

def step : Nat → Cursor W α → W → Option (Except Panic (Step α) × Cursor W α × W)
  | 0, _, _ => none
  | fuel+1, c, w =>
    match c.tick w with
    | (.silent, c, w) => step fuel c w
    | (.yield a, c, w) => some (.ok (.yield a), c, w)
    | (.done, c, w) => some (.ok .done, c, w)
    | (.panic p, c, w) => some (.error p, c, w)

/-- Leaves out `n` elements and answers whether the end did not come first. -/
def advanceBy : Nat → Nat → Cursor W α → W → Option (Except Panic Bool × Cursor W α × W)
  | 0, _, _, _ => none
  | fuel+1, n, c, w =>
    match c.skip n w with
    | (.ongoing n, c, w) => advanceBy fuel n c w
    | (.finished complete, c, w) => some (.ok complete, c, w)
    | (.panic p, c, w) => some (.error p, c, w)

def next (fuel : Nat) (c : Cursor W α) (w : W) :
    Option (Except Panic (Option α) × Cursor W α × W) :=
  (c.step fuel w).map fun (r, c, w) => (r.map Step.toOption, c, w)

/-- The element behind the next `n` ones. -/
def nth (fuel n : Nat) (c : Cursor W α) (w : W) :
    Option (Except Panic (Option α) × Cursor W α × W) :=
  match c.advanceBy fuel n w with
  | none => none
  | some (.ok true, c, w) => c.next fuel w
  | some (.ok false, c, w) => some (.ok none, c, w)
  | some (.error p, c, w) => some (.error p, c, w)

/-- Shows the elements to `visit` one after the other until it answers or the end is reached. -/
def consume (visit : β → α → Run W (Verdict β ρ)) (finish : β → ρ) :
    Nat → β → Cursor W α → W → Option (Except Panic ρ × Cursor W α × W)
  | 0, _, _, _ => none
  | fuel+1, b, c, w =>
    match c.tick w with
    | (.silent, c, w) => consume visit finish fuel b c w
    | (.yield a, c, w) =>
      match visit b a w with
      | none => none
      | some (.ok (.more b), w) => consume visit finish fuel b c w
      | some (.ok (.stop r), w) => some (.ok r, c, w)
      | some (.error p, w) => some (.error p, c, w)
    | (.done, c, w) => some (.ok (finish b), c, w)
    | (.panic p, c, w) => some (.error p, c, w)

/-- All that is left, each element written as soon as it is pulled. -/
def rest (fuel : Nat) (write : α → Run W β) (c : Cursor W α) (w : W) :
    Option (Except Panic (Array β) × Cursor W α × W) :=
  c.consume (fun out a => (write a).andThen fun b => pure (.more (out.push b))) id fuel #[] w

end Cursor

end PullStream
