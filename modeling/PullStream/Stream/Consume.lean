import PullStream.Cursor.Drive
import PullStream.Stream.Combinators

/-!
# Consuming operations

Each operation opens one cursor and shows its elements to a visitor; the ones that can answer early
stop pulling there. Folding from the right takes the whole stream first and calls the combining
function only then.
-/

set_option autoImplicit false

namespace PullStream

/-- A stream does not hold as many elements as were asked for. -/
inductive CardinalityError where
  | empty
  | moreThanOne
deriving DecidableEq, Repr

def CardinalityError.message : CardinalityError → String
  | empty => "expected exactly one element, but the stream is empty"
  | moreThanOne => "expected at most one element, but the stream has more"

/-- The only one of the first two elements, if there are any. -/
def atMostOne {α : Type} : Option α → Option α → Except CardinalityError (Option α)
  | none, _ => .ok none
  | some a, none => .ok (some a)
  | some _, some _ => .error .moreThanOne

def exactlyOne {α : Type} : Option α → Option α → Except CardinalityError α
  | some a, none => .ok a
  | none, _ => .error .empty
  | some _, some _ => .error .moreThanOne

namespace Cursor

variable {W α : Type}

/-- Counts one up, which fails at the greatest number `most`, if there is one. -/
def increment (most : Option Nat) (i : Nat) : Act W Nat :=
  match most with
  | some b => if i < b then Act.done (i + 1) else Act.fail "attempt to add with overflow"
  | none => Act.done (i + 1)

/-- What a search does with the element at position `i`. It counts it in any case. -/
def locate (most : Option Nat) (same : α → Act W Bool) (i : Nat) (a : α) :
    Act W (Verdict Nat (Option Nat)) :=
  (same a).andThen fun hit => (increment most i).andThen fun j =>
    pure (if hit then .stop (some i) else .more j)

/-- The position of the first element that `same` holds for, counted from `i` on. -/
def positionFrom (most : Option Nat) (fuel : Nat) (same : α → Act W Bool) (i : Nat)
    (c : Cursor W α) (w : W) : Option (Except Panic (Option Nat) × Cursor W α × W) :=
  c.consume (fun i a => .ofAct (locate most same i a)) (fun _ => none) fuel i w

/-- Leaves `start` elements out and looks for the position of the first one that `same` holds
for. -/
def search (most : Option Nat) (fuel : Nat) (same : α → Act W Bool) :
    Nat → Cursor W α → W → Option (Except Panic (Option Nat) × Cursor W α × W)
  | 0, c, w => positionFrom most fuel same 0 c w
  | before+1, c, w =>
    match c.nth fuel before w with
    | none => none
    | some (.ok (some _), c, w) =>
      match increment most before w with
      | (.ok i, w) => positionFrom most fuel same i c w
      | (.error p, w) => some (.error p, c, w)
    | some (r, c, w) => some (r.map fun _ => none, c, w)

/-- The next two elements. The second one is asked for even if there is no first one. -/
def pair (fuel : Nat) (c : Cursor W α) (w : W) :
    Option (Except Panic (Option α × Option α) × Cursor W α × W) :=
  match c.next fuel w with
  | none => none
  | some (.ok a, c, w) => (c.next fuel w).map fun (r, c, w) => (r.map (a, ·), c, w)
  | some (.error p, c, w) => some (.error p, c, w)

end Cursor

namespace Stream

variable {W α β κ ρ ε : Type}

/-- Opens a cursor, uses it and drops it. -/
def session (use : Cursor W α → W → Option (Except Panic ρ × Cursor W α × W)) (s : Stream W α) :
    Run W ρ := fun w =>
  match s.cursor w with
  | (.ok c, w) => (use c w).map fun (r, _, w) => (r, w)
  | (.error p, w) => some (.error p, w)

def consume (fuel : Nat) (visit : β → α → Run W (Verdict β ρ)) (finish : β → ρ) (b : β)
    (s : Stream W α) : Run W ρ :=
  s.session (Cursor.consume visit finish fuel b)

def fold (fuel : Nat) (f : β → α → Act W β) (b : β) (s : Stream W α) : Run W β :=
  s.consume fuel (fun b a => .ofAct ((f b a).andThen fun b => pure (.more b))) id b

def toArray (fuel : Nat) (s : Stream W α) : Run W (Array α) :=
  s.fold fuel (fun xs a => pure (xs.push a)) #[]

/-- Calls `f` on every element right after it was pulled. -/
def traverse (fuel : Nat) (f : α → Run W β) (s : Stream W α) : Run W (Array β) :=
  s.session (Cursor.rest fuel f)

/-- The first `n` elements, without a pull behind them. -/
def take (fuel n : Nat) (write : α → Run W β) (s : Stream W α) : Run W (Array β) :=
  s.session fun c w =>
    if n = 0 then some (.ok #[], c, w)
    else c.consume (fun out a => (write a).andThen fun b =>
      let out := out.push b
      pure (if out.size < n then .more out else .stop out)) id fuel #[] w

def count (fuel : Nat) (s : Stream W α) : Run W Nat :=
  s.fold fuel (fun n _ => pure (n + 1)) 0

def forEach (fuel : Nat) (f : α → Act W Unit) (s : Stream W α) : Run W Unit :=
  s.fold fuel (fun _ a => f a) ()

/-- Calls `f` until it refuses an element, and hands the refusal back. -/
def tryForEach (fuel : Nat) (f : α → Act W (Except ε Unit)) (s : Stream W α) :
    Run W (Except ε Unit) :=
  s.consume fuel (fun _ a => .ofAct ((f a).andThen fun
    | .ok () => pure (.more ())
    | .error e => pure (.stop (.error e)))) .ok ()

def reduceWith (fuel : Nat) (init : β) (combine : β → α → Act W β) (s : Stream W α) : Run W β :=
  s.fold fuel combine init

/-- Folds from the left, beginning with the first element. -/
def reduce (fuel : Nat) (combine : α → α → Act W α) (s : Stream W α) : Run W (Option α) :=
  s.fold fuel (fun
    | none, a => pure (some a)
    | some b, a => (combine b a).andThen fun b => pure (some b)) none

/-- Folds from the left until `combine` refuses an element, and hands the refusal back. -/
def tryReduceWith (fuel : Nat) (init : β) (combine : β → α → Act W (Except ε β))
    (s : Stream W α) : Run W (Except ε β) :=
  s.consume fuel (fun b a => .ofAct ((combine b a).andThen fun
    | .ok b => pure (.more b)
    | .error e => pure (.stop (.error e)))) .ok init

/-- Folds a list from the left with effects. -/
def foldList (combine : β → α → Act W β) : List α → β → Act W β
  | [], b => pure b
  | a :: rest, b => (combine b a).andThen (foldList combine rest)

def reduceRightWith (fuel : Nat) (init : β) (combine : β → α → Act W β) (s : Stream W α) :
    Run W β :=
  (s.toArray fuel).andThen fun xs => .ofAct (foldList combine xs.toList.reverse init)

def reduceRight (fuel : Nat) (combine : α → α → Act W α) (s : Stream W α) : Run W (Option α) :=
  (s.toArray fuel).andThen fun xs => .ofAct <|
    match xs.toList.reverse with
    | [] => pure none
    | a :: rest => (foldList combine rest a).andThen fun b => pure (some b)

def find (fuel : Nat) (p : α → Act W Bool) (s : Stream W α) : Run W (Option α) :=
  s.consume fuel (fun _ a => .ofAct ((p a).andThen fun hit =>
    pure (if hit then .stop (some a) else .more ()))) (fun _ => none) ()

/-- The position of the first element for which `p` holds. -/
def findIndex (fuel : Nat) (p : α → Act W Bool) (s : Stream W α) : Run W (Option Nat) :=
  s.consume fuel (fun i a => .ofAct ((p a).andThen fun hit =>
    pure (if hit then .stop (some i) else .more (i + 1)))) (fun _ => none) 0

/-- The position, from `start` on, of the first element that equals `a`. What equals it is for `eq`
to say, which is asked about no element before. Positions are counted up to `most`. -/
def indexOf (most : Option Nat) (fuel : Nat) (eq : α → α → Act W Bool) (a : α) (start : Nat)
    (s : Stream W α) : Run W (Option Nat) :=
  s.session (Cursor.search most fuel (eq · a) start)

def some? (fuel : Nat) (p : α → Act W Bool) (s : Stream W α) : Run W Bool :=
  s.consume fuel (fun _ a => .ofAct ((p a).andThen fun hit =>
    pure (if hit then .stop true else .more ()))) (fun _ => false) ()

def every? (fuel : Nat) (p : α → Act W Bool) (s : Stream W α) : Run W Bool :=
  s.consume fuel (fun _ a => .ofAct ((p a).andThen fun holds =>
    pure (if holds then .more () else .stop false))) (fun _ => true) ()

/-- Whether an element equals `a`, as `eq` has it. -/
def includes (fuel : Nat) (eq : α → α → Act W Bool) (a : α) (s : Stream W α) : Run W Bool :=
  s.some? fuel (eq · a)

def head (fuel : Nat) (s : Stream W α) : Run W (Option α) := s.session (Cursor.next fuel)

/-- The known empty stream is not even opened; any other is stepped once. -/
def isEmpty (fuel : Nat) (s : Stream W α) : Run W Bool :=
  if s.knownEmpty then pure true
  else (s.head fuel).andThen fun a => pure a.isNone

def option (fuel : Nat) (s : Stream W α) : Run W (Except CardinalityError (Option α)) :=
  (s.session (Cursor.pair fuel)).andThen fun (a, b) => pure (atMostOne a b)

def one (fuel : Nat) (s : Stream W α) : Run W (Except CardinalityError α) :=
  (s.session (Cursor.pair fuel)).andThen fun (a, b) => pure (exactlyOne a b)

/-- The elements, each once. -/
def toSet [DecidableEq α] (fuel : Nat) (s : Stream W α) : Run W (List α) :=
  s.fold fuel (fun xs a => pure (if a ∈ xs then xs else a :: xs)) []

/-- Associates `k` with `v`, in the place of what `k` was associated with before. -/
def associate [DecidableEq κ] (k : κ) (v : β) : List (κ × β) → List (κ × β)
  | [] => [(k, v)]
  | (k', v') :: rest => if k' = k then (k, v) :: rest else (k', v') :: associate k v rest

/-- The last value of each key; on each element the key is asked for first. -/
def toMap [DecidableEq κ] (fuel : Nat) (key : α → Act W κ) (value : α → Act W β)
    (s : Stream W α) : Run W (List (κ × β)) :=
  s.fold fuel (fun m a => (key a).andThen fun k => (value a).andThen fun v =>
    pure (associate k v m)) []

end Stream

end PullStream
