import PullStream.Script.Session

/-!
# Sessions on a tree

The traversals of one tree, each with a name, advanced and pruned in any order. A traversal is held
as a cursor or as a native iterator; the two differ in how they report the next node.
-/

set_option autoImplicit false

namespace PullStream.Script

structure Traversal (ν : Type) : Type 1 where
  cursor : TreeCursor World ν
  isIterator : Bool

inductive TreeAction where
  | opened (name : String) (isIterator : Bool)
  | root
  | for
  | streamCount
  | next (name : String)
  | prune (name : String)
  | depth (name : String)
  | advanceBy (name : String) (n : Nat)
  | nth (name : String) (n : Nat)
  | rest (name : String)
  | walk (name : String) (prunes : Pred) (maxDepth : Option Nat)

structure TreeSession (ν : Type) : Type 1 where
  tree : TreeStream World ν ν
  label : ν → Value
  traversals : List (String × Traversal ν)
  world : World

namespace TreeSession

variable {ν ρ : Type}

def report (outcome : Except Panic Answer) (s : TreeSession ν) : Report × TreeSession ν :=
  (⟨outcome, s.world.log⟩, s)

def missing (s : TreeSession ν) : Report × TreeSession ν :=
  report (.error ⟨"bad input: no such name"⟩) s

def quiet (s : TreeSession ν) : TreeSession ν := { s with world := { s.world with log := #[] } }

def written (s : TreeSession ν) (n : ν) : Answer := .value (s.label n)

/-- Uses a traversal by name and stores the state it is left in. -/
def drive (s : TreeSession ν) (name : String) (answer : Traversal ν → ρ → Answer)
    (use : TreeCursor World ν → World →
      Option (Except Panic ρ × TreeCursor World ν × World)) :
    Option (Report × TreeSession ν) :=
  match s.traversals.lookup name with
  | none => some s.missing
  | some t =>
    match use t.cursor s.world with
    | none => none
    | some (r, c, w) => some (report (r.map (answer t))
      { s with traversals := (name, { t with cursor := c }) :: s.traversals, world := w })

/-- Uses what pulls nothing and cannot panic. -/
def touch (s : TreeSession ν) (name : String)
    (use : TreeCursor World ν → Answer × TreeCursor World ν) : Option (Report × TreeSession ν) :=
  s.drive name (fun _ a => a) fun c w => let (a, c) := use c; some (.ok a, c, w)

def run (s : TreeSession ν) (x : Run World Answer) : Option (Report × TreeSession ν) :=
  match x s.world with
  | none => none
  | some (r, w) => some (report r { s with world := w })

def openTraversal (s : TreeSession ν) (name : String) (isIterator : Bool) :
    Report × TreeSession ν :=
  match s.tree.cursor s.world with
  | (.ok c, w) => report (.ok .unit)
    { s with traversals := (name, ⟨c, isIterator⟩) :: s.traversals, world := w }
  | (.error p, w) => report (.error p) { s with world := w }

/-- At the maximal depth the subtree is left out without asking. -/
def prunesAt (prunes : Pred) (maxDepth : Option Nat) (label : Value) (depth : Nat) :
    Act World Bool :=
  if maxDepth.any (· ≤ depth) then pure true else prunes.run label

def act (fuel : Nat) (s : TreeSession ν) : TreeAction → Option (Report × TreeSession ν)
  | .opened name isIterator => some (s.openTraversal name isIterator)
  | .root => s.run (pure (s.written s.tree.root))
  | .for => s.run ((s.tree.toArray fuel).andThen fun ns => pure (.ofArray (ns.map s.written)))
  | .streamCount => s.run ((s.tree.stream.count fuel).andThen fun n => pure (.count n))
  | .next name => s.drive name (fun t r =>
      let r := r.map s.written
      if t.isIterator then .ofOption r.toOption else .ofStep r) (TreeCursor.step fuel)
  | .prune name => s.touch name fun c => (.unit, c.prune)
  | .depth name => s.touch name fun c => (.count c.depth, c)
  | .advanceBy name n => s.drive name (fun _ b => .truth b) (TreeCursor.advanceBy fuel n)
  | .nth name n => s.drive name (fun _ r => .ofOption (r.map s.written)) (TreeCursor.nth fuel n)
  | .rest name => s.drive name (fun _ ns => .ofArray (ns.map s.written)) (TreeCursor.rest fuel)
  | .walk name prunes maxDepth =>
    s.drive name (fun _ seen => .ofArray (seen.map fun (n, d) => .list [s.written n, .count d]))
      (TreeCursor.walk (fun n d => prunesAt prunes maxDepth (s.label n) d) fuel #[])

def actAll (fuel : Nat) : TreeSession ν → List TreeAction → Option (List Report)
  | _, [] => some []
  | s, a :: rest =>
    match s.quiet.act fuel a with
    | none => none
    | some (r, s) => (actAll fuel s rest).map (r :: ·)

end TreeSession

/-- Runs the steps of a session on the tree that an expression describes. -/
def exploreTree (fuel : Nat) (e : TreeExpr) (actions : List TreeAction) : Option (List Report) :=
  (e.elim fun label tree =>
    ULift.up ((TreeSession.mk tree label [] .fresh).actAll fuel actions)).down

end PullStream.Script
