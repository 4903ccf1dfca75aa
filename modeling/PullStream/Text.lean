import PullStream.Stream.Consume
import PullStream.Nested

/-!
# Joined text

`Stream.join` writes the texts of the elements with a separator exactly between neighbours. An
element that is a stream itself is written as its own elements with commas between them, whatever
the separator around it is, and it is drained before the next element is pulled.
-/

set_option autoImplicit false

namespace PullStream

def absentText : String := "undefined"

/-- The text of an element that has no textual form. -/
def formlessText : String := "[object]"

def optionText {α : Type} (text : α → String) : Option α → String
  | some a => text a
  | none => absentText

variable {W α ι : Type}

def Stream.join (fuel : Nat) (text : α → Run W String) (separator : String) (s : Stream W α) :
    Run W String :=
  s.consume fuel (fun out a => (text a).andThen fun t =>
    pure (.more (some (match out with
      | none => t
      | some before => before ++ separator ++ t)))) (·.getD "") none

def Stream.innerText (fuel : Nat) (text : α → Run W String) (s : Stream W α) : Run W String :=
  s.join fuel text ","

def Nested.text (book : ι → Stream W (Nested ι α)) (text : α → String) :
    Nat → Nested ι α → Run W String
  | _, .value a => pure (text a)
  | 0, .stream _ => .exhausted
  | fuel+1, .stream i => (book i).innerText fuel (Nested.text book text fuel)

end PullStream
