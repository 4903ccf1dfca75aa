import PullStream.Script.Callback

/-!
# Stream expressions

The notation in which a script describes a stream: a source and the operations applied to it.
-/

set_option autoImplicit false

namespace PullStream.Script

/-- One entry of a scripted source. -/
inductive Cue where
  | yield (v : Value)
  | done
  | panic (message : String)

inductive LabelTree where
  | node (label : Value) (children : List LabelTree)

/-- A tree is written out, or its nodes are integers and the children of `n` are `a * n + b` for
each of the lines, those above the maximum left out. -/
inductive TreeShape where
  | labels (t : LabelTree)
  | lines (root : Int64) (lines : List (Int64 × Int64)) (max : Option Int64)

inductive ChildrenForm where
  | vector
  | option
  | iteration

structure TreeExpr where
  shape : TreeShape
  includesRoot : Bool
  children : ChildrenForm
  logs : Bool
  panicOn : Option Value

mutual

inductive Expr where
  | empty
  | items (xs : List Value)
  | view (xs : List Value)
  | option (xs : Option (List Value))
  | once (v : Value)
  | range (start : Int64) (stop : Option Int64)
  | count (start step : Int64)
  | same (e : Expr)
  | reopened (e : Expr)
  | all (es : List Expr)
  | tree (t : TreeExpr)
  | var (name : String)
  | scripted (jumps : Bool) (tag : Option String) (cues : List Cue)
  | nested (xs : List Value)
  | deep (depth : Int64)
  | streams (es : List Expr)
  | options (xs : List Value)
  | apply (e : Expr) (op : Op)

inductive Op where
  | tail (n : Nat)
  | limit (n : Nat)
  | concat (other : Expr)
  | map (f : Fn)
  | filter (p : Pred)
  | filterMap (p : Pred) (f : Fn)
  | distinct
  | distinctBy (key : Fn)
  | exclude (other : Expr)
  | excludeBy (other : Expr) (key : Fn)
  | flatMap (g : Nesting)
  | nest (g : Nesting)
  | streams (g : Nesting)
  | options
  | flat (depth : Nat)
  | leaves
  | values
  | onlyStreams
  | flatten
  | nonNull

/-- What an element is turned into: a stream of values or an element of a nested stream. -/
inductive Nesting where
  | list
  | range
  | empty
  | expr (e : Expr)
  | value
  | nest
  | choose (p : Pred) (yes no : Nesting)

end

end PullStream.Script
