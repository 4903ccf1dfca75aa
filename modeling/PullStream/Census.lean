import PullStream.Markup.Node
import PullStream.Text

/-!
# Element names

The names of a document's elements, each once in the order of its first occurrence, with or without
the number of its occurrences.
-/

set_option autoImplicit false

namespace PullStream

open Markup

structure Census where
  separator : String
  counted : Bool

namespace Census

def names (root : Node) : Stream Unit String :=
  root.elements.stream.map fun n => pure n.localName

/-- One occurrence more of a name. -/
def tally (counts : List (String × Nat)) (name : String) : List (String × Nat) :=
  Stream.associate name ((counts.lookup name).getD 0 + 1) counts

def entry (counts : List (String × Nat)) (name : String) : String :=
  name ++ " " ++ toString ((counts.lookup name).getD 0)

def listing (c : Census) (root : Node) : Run Unit String :=
  let fuel := root.moves
  let distinct := (names root).distinct
  let join (s : Stream Unit String) : Run Unit String := s.join fuel pure c.separator
  if c.counted then
    ((names root).reduceWith fuel [] fun counts name => pure (tally counts name)).andThen
      fun counts => join (distinct.map fun name => pure (entry counts name))
  else join distinct

def write (c : Census) (root : Node) : String := (c.listing root).answer?.getD ""

end Census

end PullStream
