import PullStream.Decimal.Shortest
import PullStream.Text

/-!
# Scalars

Elements with a text of their own, joined in the shapes in which they can stand in a stream. Whole
numbers of any width share one text.
-/

set_option autoImplicit false

namespace PullStream

inductive Scalar where
  | whole (n : Int)
  | truth (b : Bool)
  | character (c : Char)
  | text (s : String)
  | float32 (bits : Nat)
  | float64 (bits : Nat)

namespace Scalar

def write : Scalar → String
  | whole n => toString n
  | truth b => if b then "true" else "false"
  | character c => c.toString
  | text s => s
  | float32 bits => binary32.write bits
  | float64 bits => binary64.write bits

/-- How scalars, some of them absent, are laid out in a stream: the present ones alone, as options
once or twice over, as two streams of the present ones, or followed by a nested stream of them. -/
inductive Shape where
  | present
  | options
  | nestedOptions
  | streams
  | nested

variable {W : Type}

def written (s : Scalar) : Run W String := pure s.write

def join (fuel : Nat) (separator : String) (items : List (Option Scalar)) : Shape → Run W String
  | .present =>
    (Stream.ofArray (items.filterMap id).toArray).join fuel written separator
  | .options =>
    (Stream.ofArray items.toArray).join fuel (fun x => pure (optionText write x)) separator
  | .nestedOptions =>
    (Stream.ofArray (items.map some).toArray).join fuel
      (fun x => pure (optionText (optionText write) x)) separator
  | .streams =>
    let inner : Stream W Scalar := .ofArray (items.filterMap id).toArray
    (Stream.ofArray #[(), ()]).join fuel (fun _ => inner.innerText fuel written) separator
  | .nested =>
    let present := items.filterMap id
    let inner : Stream W Scalar := .ofArray present.toArray
    let elements := present.map Nested.value ++ [Nested.stream ()]
    (Stream.ofArray elements.toArray).join fuel (Nested.text (fun _ => inner.plain) write fuel)
      separator

end Scalar

end PullStream
