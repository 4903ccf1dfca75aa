import PullStream.Script.Expression
import PullStream.Tree

/-!
# Trees of a script

The nodes of a written tree are its subtrees, those of a tree given by lines are integers. Either
way a node has a label and a list of children, and `Plant.stream` is the traversal that a script
asks for.
-/

set_option autoImplicit false

namespace PullStream.Script

structure Plant (ν : Type) where
  root : ν
  label : ν → Value
  children : ν → List ν

def LabelTree.label : LabelTree → Value
  | node label _ => label

def LabelTree.children : LabelTree → List LabelTree
  | node _ children => children

def LabelTree.plant (t : LabelTree) : Plant LabelTree := ⟨t, label, children⟩

def linesPlant (root : Int64) (lines : List (Int64 × Int64)) (max : Option Int64) :
    Plant Int64 where
  root := root
  label := .int
  children n :=
    let all := lines.map fun (a, b) => a * n + b
    match max with
    | some m => all.filter (· ≤ m)
    | none => all

namespace Plant

variable {ν : Type}

/-- Walks down the children and writes down each one that it hands out. -/
def childSource (p : Plant ν) (parent : ν) : Source World (List ν) ν where
  pull
    | [], w => (.ok .done, [], w)
    | n :: rest, w =>
      let (r, w) := World.note (.child (p.label parent) (p.label n)) w
      (r.map fun _ => .yield n, rest, w)
  jump := none

def childStream (p : Plant ν) (form : ChildrenForm) (logs : Bool) (n : ν) : Stream World ν :=
  let nodes := p.children n
  match form with
  | .vector => .ofArray nodes.toArray
  | .option => .ofOption (if nodes.isEmpty then none else some nodes.toArray)
  | .iteration =>
    if logs then
      .source (do World.note (.opened (p.label n)); return nodes) (p.childSource n)
    else .ofList nodes

def askChildren (p : Plant ν) (logs : Bool) (panicOn : Option Value) (n : ν) : Act World ν := do
  World.noteIf logs (.children (p.label n))
  if panicOn = some (p.label n) then Act.fail "no children" else pure n

/-- The stream of a node's children is named by the node itself. -/
def stream (p : Plant ν) (e : TreeExpr) : TreeStream World ν ν where
  root := p.root
  children := p.askChildren e.logs e.panicOn
  book := p.childStream e.children e.logs
  includesRoot := e.includesRoot

end Plant

/-- Hands the tree of an expression, whatever its nodes are, to `use`. -/
def TreeExpr.elim {ρ : Type 1}
    (use : {ν : Type} → (ν → Value) → TreeStream World ν ν → ρ) (e : TreeExpr) : ρ :=
  match e.shape with
  | .labels t => use t.plant.label (t.plant.stream e)
  | .lines root lines max =>
    let p := linesPlant root lines max
    use p.label (p.stream e)

end PullStream.Script
