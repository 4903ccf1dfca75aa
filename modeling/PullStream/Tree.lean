import PullStream.Cursor.Drive
import PullStream.Stream.Combinators

/-!
# Trees

The descendants of a root in pre-order. A traversal keeps the child streams of the nodes on the path
to the node produced last, so it goes to any depth and holds nothing of the siblings to come. A node
that is produced has its children asked for and their stream opened in the same step; whoever does
not want them prunes, and the stream is dropped without a pull.
-/

set_option autoImplicit false

namespace PullStream

/-- `children` names the stream of a node's children; `book` says what the name stands for. -/
structure TreeStream (W ν ι : Type) where
  root : ν
  children : ν → Act W ι
  book : ι → Stream W ν
  includesRoot : Bool

/-- One traversal: the streams open on the way down, whether the next step prunes, and how many of
the open streams do not count as depth. -/
structure TreeCursor (W ν : Type) : Type 1 where
  path : Cursor W ν
  pruning : Bool
  base : Nat

namespace TreeStream

variable {W ν ι : Type}

def visit (t : TreeStream W ν ι) (_level : Nat) (n : ν) : Act W (Visit ι ν) :=
  (t.children n).andThen fun i => Act.done (.emitAndEnter n i)

/-- The nodes that a traversal starts from. -/
def top (t : TreeStream W ν ι) : Stream W ν :=
  if t.includesRoot then Stream.once t.root else .deferred (t.children t.root) t.book

def base (t : TreeStream W ν ι) : Nat := if t.includesRoot then 2 else 1

/-- The traversal as a plain stream, without pruning. -/
def stream (t : TreeStream W ν ι) : Stream W ν := .descending t.visit t.book t.top

def cursor (t : TreeStream W ν ι) : Act W (TreeCursor W ν) :=
  t.stream.cursor.andThen fun c => Act.done ⟨c, false, t.base⟩

end TreeStream

namespace TreeCursor

variable {W ν ρ : Type}

/-- Leaves out what lies below the node produced last, from the next step on. -/
def prune (t : TreeCursor W ν) : TreeCursor W ν := { t with pruning := true }

/-- How far below the root the node produced last lies. -/
def depth (t : TreeCursor W ν) : Nat := t.path.height - t.base

/-- The state in which the next step looks for a node: a pending prune has taken effect. -/
def settle (t : TreeCursor W ν) : TreeCursor W ν :=
  if t.pruning then { t with path := t.path.ascend, pruning := false } else t

def tick (t : TreeCursor W ν) (w : W) : Move ν × TreeCursor W ν × W :=
  let (m, c, w) := t.settle.path.tick w
  (m, { t.settle with path := c }, w)

/-- Applies what drives a cursor to the path, once a pending prune has taken effect. -/
def along (use : Cursor W ν → W → Option (Except Panic ρ × Cursor W ν × W)) (t : TreeCursor W ν)
    (w : W) : Option (Except Panic ρ × TreeCursor W ν × W) :=
  (use t.settle.path w).map fun (r, c, w) => (r, { t.settle with path := c }, w)

def step (fuel : Nat) (t : TreeCursor W ν) (w : W) :
    Option (Except Panic (Step ν) × TreeCursor W ν × W) :=
  t.along (Cursor.step fuel) w

def next (fuel : Nat) (t : TreeCursor W ν) (w : W) :
    Option (Except Panic (Option ν) × TreeCursor W ν × W) :=
  t.along (Cursor.next fuel) w

/-- To leave out no node is not a step, so a pending prune stays pending. -/
def advanceBy (fuel n : Nat) (t : TreeCursor W ν) (w : W) :
    Option (Except Panic Bool × TreeCursor W ν × W) :=
  if n = 0 then some (.ok true, t, w) else t.along (Cursor.advanceBy fuel n) w

def nth (fuel n : Nat) (t : TreeCursor W ν) (w : W) :
    Option (Except Panic (Option ν) × TreeCursor W ν × W) :=
  t.along (Cursor.nth fuel n) w

def rest (fuel : Nat) (t : TreeCursor W ν) (w : W) :
    Option (Except Panic (Array ν) × TreeCursor W ν × W) :=
  t.along (Cursor.rest fuel pure) w

/-- Walks to the end. Each node is recorded with its depth, and `prune?` says whether its subtree is
left out. -/
def walk (prune? : ν → Nat → Act W Bool) :
    Nat → Array (ν × Nat) → TreeCursor W ν → W →
      Option (Except Panic (Array (ν × Nat)) × TreeCursor W ν × W)
  | 0, _, _, _ => none
  | fuel+1, seen, t, w =>
    match t.tick w with
    | (.silent, t, w) => walk prune? fuel seen t w
    | (.yield n, t, w) =>
      match prune? n t.depth w with
      | (.ok true, w) => walk prune? fuel (seen.push (n, t.depth)) t.prune w
      | (.ok false, w) => walk prune? fuel (seen.push (n, t.depth)) t w
      | (.error p, w) => some (.error p, t, w)
    | (.done, t, w) => some (.ok seen, t, w)
    | (.panic p, t, w) => some (.error p, t, w)

end TreeCursor

namespace TreeStream

variable {W ν ι : Type}

/-- All nodes of a traversal without pruning. -/
def toArray (fuel : Nat) (t : TreeStream W ν ι) : Run W (Array ν) := fun w =>
  match t.cursor w with
  | (.ok c, w) => (c.rest fuel w).map fun (r, _, w) => (r, w)
  | (.error p, w) => some (.error p, w)

end TreeStream

end PullStream
