import PullStream.Script.Build

/-!
# Consuming a built stream

A sink is a consuming operation of a script. Its answer is data: an element that is a stream is
drained where it is written down, so what that pulls is logged there.
-/

set_option autoImplicit false

namespace PullStream.Script

inductive Answer where
  | unit
  | truth (b : Bool)
  | count (n : Nat)
  | text (s : String)
  | value (v : Value)
  | plain (v : Value)
  | drained (xs : List Answer)
  | list (xs : List Answer)
  | absent
  | present (a : Answer)
  | ended
  | yielded (a : Answer)
  | accepted (a : Answer)
  | rejected (a : Answer)
  | cardinality (e : CardinalityError)

namespace Answer

def ofOption : Option Answer → Answer
  | some a => present a
  | none => absent

def ofStep : Step Answer → Answer
  | .yield a => yielded a
  | .done => ended

def ofArray (xs : Array Answer) : Answer := list xs.toList

def ofResult : Except Value Answer → Answer
  | .ok a => accepted a
  | .error v => rejected (value v)

end Answer

/-- How the elements of a stream are written into an answer and into a joined text. -/
structure Element (α : Type) where
  write : Nat → α → Run World Answer
  text : Nat → α → Run World String

namespace Element

def value : Element Value where
  write _ v := pure (.value v)
  text _ v := pure v.write

def option : Element (Option Value) where
  write _ v := pure (.ofOption (v.map .value))
  text _ v := pure (optionText Value.write v)

def stream {ι : Type} (book : ι → Stream World Value) : Element ι where
  write fuel i := ((book i).traverse fuel (value.write fuel)).andThen fun xs =>
    pure (.drained xs.toList)
  text fuel i := (book i).innerText fuel (value.text fuel)

def writeNested {ι : Type} (book : ι → Stream World (Nested ι Value)) :
    Nat → Nested ι Value → Run World Answer
  | _, .value v => pure (.plain v)
  | 0, .stream _ => .exhausted
  | fuel+1, .stream i => ((book i).traverse fuel (writeNested book fuel)).andThen fun xs =>
    pure (.drained xs.toList)

def nested {ι : Type} (book : ι → Stream World (Nested ι Value)) : Element (Nested ι Value) where
  write := writeNested book
  text := Nested.text book Value.write

end Element

inductive Sink where
  | toArray
  | for
  | take (n : Nat)
  | count
  | isEmpty
  | head
  | one
  | option
  | join (separator : String)
  | debug
  | kinds
  | debugAll
  | toSet
  | toMap (key value : Fn)
  | forEach (f : Fn)
  | tryForEach (p : Pred)
  | reduce (c : Combine)
  | reduceRight (c : Combine)
  | reduceWith (init : Value) (c : Combine)
  | reduceRightWith (init : Value) (c : Combine)
  | tryReduceWith (init : Value) (p : Pred) (c : Combine)
  | find (p : Pred)
  | findIndex (p : Pred)
  | indexOf (v : Value) (start : Nat)
  | includes (v : Value)
  | every (p : Pred)
  | some (p : Pred)

def debugText {α : Type} (s : Stream World α) : String :=
  if s.knownEmpty then "Stream::Empty" else "Stream::Lazy(..)"

def writeAll {α : Type} (write : α → Run World Answer) : List α → Run World (List Answer)
  | [] => pure []
  | a :: rest => (write a).andThen fun x => (writeAll write rest).andThen fun xs => pure (x :: xs)

def badSink {ρ : Type} : Run World ρ := .ofAct (Act.fail "bad input: no such operation")

namespace Sink

variable {α : Type}

def writeOption (write : α → Run World Answer) : Option α → Run World Answer
  | .some a => (write a).andThen fun x => pure (.present x)
  | none => pure .absent

/-- The operations that every kind of stream has. -/
def runOn (fuel : Nat) (e : Element α) (s : Stream World α) : Sink → Run World Answer
  | toArray => (s.toArray fuel).andThen fun xs => (writeAll (e.write fuel) xs.toList).andThen
    fun xs => pure (.list xs)
  | .for => (s.traverse fuel (e.write fuel)).andThen fun xs => pure (.ofArray xs)
  | take n => (s.take fuel n (e.write fuel)).andThen fun xs => pure (.ofArray xs)
  | count => (s.count fuel).andThen fun n => pure (.count n)
  | isEmpty => (s.isEmpty fuel).andThen fun b => pure (.truth b)
  | head => (s.head fuel).andThen (writeOption (e.write fuel))
  | one => (s.one fuel).andThen fun
    | .ok a => (e.write fuel a).andThen fun x => pure (.accepted x)
    | .error err => pure (.cardinality err)
  | option => (s.option fuel).andThen fun
    | .ok a => (writeOption (e.write fuel) a).andThen fun x => pure (.accepted x)
    | .error err => pure (.cardinality err)
  | join separator => (s.join fuel (e.text fuel) separator).andThen fun t => pure (.text t)
  | debug => pure (.text (debugText s))
  | _ => badSink

def compareBy {β : Type} (key : β → Value) (a b : β) : Bool := (Value.order (key a) (key b)).isLE

def index (i : Option Nat) : Answer := .ofOption (i.map .count)

def equals (a b : Value) : Act World Bool := pure (a == b)

/-- The greatest position that is counted. -/
def greatest : Nat := UInt64.size - 1

def runOnValues (fuel : Nat) (s : Stream World Value) : Sink → Run World Answer
  | toSet => (s.toSet fuel).andThen fun xs =>
    pure (.list ((xs.mergeSort (compareBy id)).map .value))
  | toMap key value => (s.toMap fuel key.run value.run).andThen fun m =>
    pure (.list ((m.mergeSort (compareBy Prod.fst)).map fun (k, v) =>
      .list [.value k, .value v]))
  | forEach f => (s.forEach fuel fun x => do let _ ← f.run x; return ()).andThen fun _ =>
    pure .unit
  | tryForEach p => (s.tryForEach fuel fun x => do
      World.note (.each x)
      if ← p.run x then return .error x else return .ok ()).andThen fun r =>
    pure (.ofResult (r.map fun _ => .unit))
  | reduce c => (s.reduce fuel c.run).andThen fun r => pure (.ofOption (r.map .value))
  | reduceRight c => (s.reduceRight fuel c.run).andThen fun r => pure (.ofOption (r.map .value))
  | reduceWith init c => (s.reduceWith fuel init c.run).andThen fun r => pure (.value r)
  | reduceRightWith init c => (s.reduceRightWith fuel init c.run).andThen fun r =>
    pure (.value r)
  | tryReduceWith init p c => (s.tryReduceWith fuel init fun a b => do
      if ← p.run b then return .error (.list [a, b]) else return .ok (← c.run a b)).andThen
    fun r => pure (.ofResult (r.map .value))
  | find p => (s.find fuel p.run).andThen fun r => pure (.ofOption (r.map .value))
  | findIndex p => (s.findIndex fuel p.run).andThen fun i => pure (index i)
  | indexOf v start => (s.indexOf (Option.some greatest) fuel equals v start).andThen fun i =>
    pure (index i)
  | includes v => (s.includes fuel equals v).andThen fun b => pure (.truth b)
  | every p => (s.every? fuel p.run).andThen fun b => pure (.truth b)
  | .some p => (s.some? fuel p.run).andThen fun b => pure (.truth b)
  | sink => sink.runOn fuel Element.value s

def debugElement (s : NestedStream) : Nested s.Name Value → String
  | .value v => "Value(" ++ v.write ++ ")"
  | .stream i => "Stream(" ++ debugText (s.book i) ++ ")"

def runOnNested (fuel : Nat) (s : NestedStream) : Sink → Run World Answer
  | kinds => (s.stream.traverse fuel fun x => pure (.truth x.isStream)).andThen fun xs =>
    pure (.ofArray xs)
  | debugAll => (s.stream.traverse fuel fun x => pure (.text (debugElement s x))).andThen fun xs =>
    pure (.ofArray xs)
  | sink => sink.runOn fuel (.nested s.book) s.stream

def run (fuel : Nat) (sink : Sink) : Built → Run World Answer
  | .values s => sink.runOnValues fuel s
  | .nested s => sink.runOnNested fuel s
  | .streams s => sink.runOn fuel (.stream s.book) s.stream
  | .options s => sink.runOn fuel .option s

end Sink

end PullStream.Script
