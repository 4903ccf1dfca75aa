import PullStream.Tree

/-!
# Document trees

The nodes of a document. Only elements have names and children; a traversal of the elements passes
over text, comments and processing instructions, and attributes and the qualifiers of names do not
show in it.
-/

set_option autoImplicit false

namespace PullStream.Markup

/-- A name with the qualifier that stands for its namespace, empty if it has none. -/
structure QName where
  qualifier : String
  localName : String
deriving DecidableEq, Repr

structure Attribute where
  name : QName
  value : String
deriving DecidableEq, Repr

inductive Node where
  | element (name : QName) (attributes : List Attribute) (children : List Node)
  | text (content : String)
  | comment (content : String)
  | instruction (target content : String)

namespace Node

def isElement : Node → Bool
  | element _ _ _ => true
  | _ => false

def localName : Node → String
  | element name _ _ => name.localName
  | _ => ""

def children : Node → List Node
  | element _ _ children => children
  | _ => []

def childElements (n : Node) : List Node := n.children.filter isElement

mutual

/-- How many nodes there are, this one and all below it. -/
def size : Node → Nat
  | element _ _ children => sizeAll children + 1
  | text _ | comment _ | instruction _ _ => 1

def sizeAll : List Node → Nat
  | [] => 0
  | n :: rest => size n + sizeAll rest

end

/-- More moves than a traversal of all the elements takes: each is produced once and each of its
child lists ends once. -/
def moves (n : Node) : Nat := 2 * n.size + 3

variable {W : Type}

/-- The element and all elements below it, in document order. -/
def elements (root : Node) : TreeStream W Node Node where
  root := root
  children := Act.done
  book n := .ofList n.childElements
  includesRoot := true

end Node

end PullStream.Markup
