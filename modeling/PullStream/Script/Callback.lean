import PullStream.Script.Value

/-!
# Callbacks

The functions, predicates and combining functions that a script passes to streams. Their world is a
log and one counter that all callbacks share.
-/

set_option autoImplicit false

namespace PullStream.Script

/-- What callbacks, scripted sources and children functions write into the log. -/
inductive Event where
  | start (tag : String)
  | pull (tag : String)
  | jump (tag : String) (n : Nat)
  | saw (tag : String) (x : Value)
  | combined (tag : String) (a b : Value)
  | each (x : Value)
  | children (label : Value)
  | opened (label : Value)
  | child (parent label : Value)

structure World where
  log : Array Event
  counter : Int64

namespace World

def fresh : World := ⟨#[], 0⟩

def note (e : Event) : Act World Unit :=
  Act.change fun w => { w with log := w.log.push e }

def noteIf (wanted : Bool) (e : Event) : Act World Unit :=
  if wanted then note e else pure ()

def noteFor (tag : Option String) (event : String → Event) : Act World Unit :=
  match tag with
  | some t => note (event t)
  | none => pure ()

def nextCount : Act World Int64 := do
  Act.change fun w => { w with counter := w.counter + 1 }
  return (← Act.read).counter

end World

inductive Fn where
  | id
  | add (n : Int64)
  | mul (n : Int64)
  | mod (n : Int64)
  | const (v : Value)
  | str
  | len
  | char
  | item (n : Int64)
  | wrap
  | range
  | tap (tag : String)
  | panicOn (v : Value) (message : String)
  | counter
  | seq (fs : List Fn)

/-- The remainder that is not negative. -/
def remainder (a n : Int64) : Int64 := .ofInt (a.toInt % n.toInt)

namespace Value

def plus (n : Int64) : Value → Value
  | int a => int (a + n)
  | x => x

def times (n : Int64) : Value → Value
  | int a => int (a * n)
  | x => x

def modulo (n : Int64) : Value → Value
  | int a => int (remainder a n)
  | x => x

def length : Value → Nat
  | text s => s.length
  | list xs => xs.length
  | _ => 0

def firstChar : Value → Value
  | text s => match s.toList with
    | c :: _ => text c.toString
    | [] => null
  | _ => null

def item (i : Int64) : Value → Value
  | list xs => if i < 0 then null else xs[i.toInt.toNat]?.getD null
  | _ => null

def occursIn (part : List Char) : List Char → Bool
  | [] => part.isEmpty
  | c :: cs => part.isPrefixOf (c :: cs) || occursIn part cs

def contains (part : String) : Value → Bool
  | text s => occursIn part.toList s.toList
  | _ => false

end Value

namespace Fn

mutual

def run : Fn → Value → Act World Value
  | id, x => pure x
  | add n, x => pure (x.plus n)
  | mul n, x => pure (x.times n)
  | mod n, x => pure (x.modulo n)
  | const v, _ => pure v
  | str, x => pure (.text x.write)
  | len, x => pure (.int (.ofNat x.length))
  | char, x => pure x.firstChar
  | item n, x => pure (x.item n)
  | wrap, x => pure (.list [x])
  | range, x => pure (.list x.range)
  | tap tag, x => do World.note (.saw tag x); return x
  | panicOn v message, x => if x = v then Act.fail message else pure x
  | counter, x => do return x.plus (← World.nextCount)
  | seq fs, x => runAll fs x

def runAll : List Fn → Value → Act World Value
  | [], x => pure x
  | f :: fs, x => do runAll fs (← run f x)

end

end Fn

inductive Pred where
  | always
  | never
  | eq (v : Value)
  | lt (n : Int64)
  | gt (n : Int64)
  | mod (n r : Int64)
  | has (part : String)
  | null
  | not (q : Pred)
  | tap (tag : String) (q : Pred)
  | on (view : Fn) (q : Pred)

def Value.intIs (p : Int64 → Bool) : Value → Bool
  | .int a => p a
  | _ => false

def Pred.run : Pred → Value → Act World Bool
  | always, _ => pure true
  | never, _ => pure false
  | eq v, x => pure (x = v)
  | lt n, x => pure (x.intIs (· < n))
  | gt n, x => pure (x.intIs (n < ·))
  | mod n r, x => pure (x.intIs (remainder · n = r))
  | has part, x => pure (x.contains part)
  | null, x => pure (x = .null)
  | not q, x => do return !(← q.run x)
  | tap tag q, x => do World.note (.saw tag x); q.run x
  | on f q, x => do q.run (← f.run x)

inductive Combination where
  | add
  | sub
  | mul
  | first
  | second
  | paren
  | push

structure Combine where
  kind : Combination
  tag : Option String
  panicOn : Option Value

def Combination.apply : Combination → Value → Value → Value
  | add, .int a, .int b => .int (a + b)
  | sub, .int a, .int b => .int (a - b)
  | mul, .int a, .int b => .int (a * b)
  | add, a, _ | sub, a, _ | mul, a, _ => a
  | first, a, _ => a
  | second, _, b => b
  | paren, a, b => .text ("(" ++ a.write ++ " " ++ b.write ++ ")")
  | push, .list xs, b => .list (xs ++ [b])
  | push, a, b => .list [a, b]

def Combine.run (c : Combine) (a b : Value) : Act World Value := do
  World.noteFor c.tag (.combined · a b)
  if c.panicOn = some b then Act.fail ("combine " ++ b.write) else pure (c.kind.apply a b)

end PullStream.Script
