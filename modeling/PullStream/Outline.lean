import PullStream.Markup.Node

/-!
# Outlines

One line per element in document order, indented by two blanks per level. What lies below an element
whose name is pruned, or below one at the maximal depth, is left out; the element itself is shown.
-/

set_option autoImplicit false

namespace PullStream

open Markup

structure Outline where
  pruned : List String
  maxDepth : Option Nat

namespace Outline

def leavesOut (o : Outline) (n : Node) (depth : Nat) : Bool :=
  o.maxDepth.any (· ≤ depth) || o.pruned.contains n.localName

/-- The elements shown, each with its depth below the outermost one. -/
def shown (o : Outline) (root : Node) : Array (Node × Nat) :=
  let walk : Run Unit (Array (Node × Nat)) := fun w =>
    match root.elements.cursor w with
    | (.ok c, w) => (c.walk (fun n depth => pure (o.leavesOut n depth)) root.moves #[] w).map
      fun (r, _, w) => (r, w)
    | (.error p, w) => some (.error p, w)
  walk.answer?.getD #[]

def line (n : Node) (depth : Nat) : String :=
  String.ofList (List.replicate (2 * depth) ' ') ++ n.localName ++ "\n"

def write (o : Outline) (root : Node) : String :=
  (o.shown root).foldl (fun out (n, depth) => out ++ line n depth) ""

end Outline

end PullStream
