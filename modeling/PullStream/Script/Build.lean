import PullStream.Script.Tree

/-!
# Building a stream from its expression

A built stream is one of four kinds. The streams that occur as elements of a nested stream have
names of a type of their own, which grows with the expression: two nested streams in a row have the
names of either. An operation on a stream of the wrong kind is refused.
-/

set_option autoImplicit false

namespace PullStream.Script

structure NestedStream : Type 1 where
  Name : Type
  book : Name → Stream World (Nested Name Value)
  stream : Stream World (Nested Name Value)

structure StreamOfStreams : Type 1 where
  Name : Type
  book : Name → Stream World Value
  stream : Stream World Name

inductive Built : Type 1 where
  | values (s : Stream World Value)
  | nested (s : NestedStream)
  | streams (s : StreamOfStreams)
  | options (s : Stream World (Option Value))

/-- A function to elements of a nested stream, with the streams that its answers name. -/
structure NestingFunction : Type 1 where
  Name : Type
  book : Name → Stream World (Nested Name Value)
  element : Value → Act World (Nested Name Value)

namespace NestedStream

def empty : NestedStream := ⟨Empty, nofun, .empty⟩

def element : Value → Nested (List Value) Value
  | .list xs => .stream xs
  | x => .value x

def elements (xs : List Value) : Stream World (Nested (List Value) Value) :=
  .ofArray (xs.map element).toArray

/-- Lists become nested streams, at every depth. -/
def ofValues (xs : List Value) : NestedStream := ⟨List Value, elements, elements xs⟩

def level (k : Int64) : Stream World (Nested Int64 Value) :=
  .ofList (if k = 0 then [.value (.int 0)]
    else [.value (.int k), .stream (k - 1), .value (.int (-k))])

/-- A stream that names the next one down, without end if it starts below zero. -/
def ofDepth (k : Int64) : NestedStream := ⟨Int64, level, level k⟩

def eitherBook {ι κ : Type} (left : ι → Stream World (Nested ι Value))
    (right : κ → Stream World (Nested κ Value)) : ι ⊕ κ → Stream World (Nested (ι ⊕ κ) Value)
  | .inl i => (left i).rename .inl
  | .inr k => (right k).rename .inr

def concat (a b : NestedStream) : NestedStream :=
  if a.stream.knownEmpty then b
  else if b.stream.knownEmpty then a
  else ⟨a.Name ⊕ b.Name, eitherBook a.book b.book,
    (a.stream.rename .inl).concat (b.stream.rename .inr)⟩

end NestedStream

namespace StreamOfStreams

def empty : StreamOfStreams := ⟨Empty, nofun, .empty⟩

def ofList (streams : List (Stream World Value)) : StreamOfStreams :=
  ⟨Nat, fun i => streams[i]?.getD .empty, .ofArray (List.range streams.length).toArray⟩

def concat (a b : StreamOfStreams) : StreamOfStreams :=
  if a.stream.knownEmpty then b
  else if b.stream.knownEmpty then a
  else ⟨a.Name ⊕ b.Name, Sum.elim a.book b.book,
    (a.stream.map fun i => pure (.inl i)).concat (b.stream.map fun i => pure (.inr i))⟩

end StreamOfStreams

namespace NestingFunction

def plain : NestingFunction := ⟨Empty, nofun, fun x => pure (.value x)⟩

def ofLists : NestingFunction :=
  ⟨List Value, NestedStream.elements, fun x => pure (NestedStream.element x)⟩

/-- Every value names the stream that `f` makes of it. -/
def ofStreams (f : Value → Stream World Value) : NestingFunction :=
  ⟨Value, fun x => (f x).plain, fun x => pure (.stream x)⟩

def choose (p : Pred) (yes no : NestingFunction) : NestingFunction :=
  ⟨yes.Name ⊕ no.Name, NestedStream.eitherBook yes.book no.book, fun x => do
    if ← p.run x then return (← yes.element x).rename .inl
    else return (← no.element x).rename .inr⟩

def flatMap (g : NestingFunction) (s : Stream World Value) : NestedStream :=
  ⟨g.Name, g.book, s.flatMap g.book g.element⟩

def nest (g : NestingFunction) (s : Stream World Value) : NestedStream :=
  ⟨g.Name, g.book, s.map g.element⟩

end NestingFunction

/-- An expression that is not one: an operation on the wrong kind, or a name that stands for
nothing. -/
abbrev Building (ρ : Type 1) := Except Panic ρ

def refuse {ρ : Type 1} (reason : String) : Building ρ := .error ⟨"bad input: " ++ reason⟩

namespace Built

/-- The empty stream is of every kind. -/
def nothing : Built → Bool
  | values s => s.knownEmpty
  | nested s => s.stream.knownEmpty
  | streams s => s.stream.knownEmpty
  | options s => s.knownEmpty

def values? : Built → Building (Stream World Value)
  | values s => .ok s
  | b => if b.nothing then .ok .empty else refuse "not a stream of values"

def nested? : Built → Building NestedStream
  | nested s => .ok s
  | b => if b.nothing then .ok .empty else refuse "not a nested stream"

def streams? : Built → Building StreamOfStreams
  | streams s => .ok s
  | b => if b.nothing then .ok .empty else refuse "not a stream of streams"

def options? : Built → Building (Stream World (Option Value))
  | options s => .ok s
  | b => if b.nothing then .ok .empty else refuse "not a stream of options"

/-- Applies an operation that every kind of stream has. -/
def each (f : {α : Type} → Stream World α → Stream World α) : Built → Built
  | values s => values (f s)
  | nested s => nested { s with stream := f s.stream }
  | streams s => streams { s with stream := f s.stream }
  | options s => options (f s)

def concat : Built → Built → Building Built
  | values a, b => b.values?.map fun b => values (a.concat b)
  | nested a, b => b.nested?.map fun b => nested (a.concat b)
  | streams a, b => b.streams?.map fun b => streams (a.concat b)
  | options a, b => b.options?.map fun b => options (a.concat b)

/-- Left-nested; the kind is that of the first stream that is not the empty one. -/
def all : Built → List Built → Building Built
  | acc, [] => .ok acc
  | acc, b :: rest =>
    if acc.nothing then all b rest
    else match acc.concat b with
      | .ok acc => all acc rest
      | .error p => .error p

def mapValues (f : Stream World Value → Built) (b : Built) : Building Built := b.values?.map f

end Built

/-- Counts through integers, up to the end if there is one. -/
def rangeSource (stop : Option Int64) : Source World Int64 Value where
  pull n w :=
    if stop.any (· ≤ n) then (.ok .done, n, w) else (.ok (.yield (.int n)), n + 1, w)
  jump := none
  again := true

/-- Counts without end. -/
def counting (start step : Int64) : Stream World Value :=
  .generate (pure start) fun n w => (.ok (.yield (.int n)), n + step, w)

/-- A script that is pulled acts on its next entry, which is used up even if it panics. -/
def cueSource (jumps : Bool) (tag : Option String) : Source World (List Cue) Value where
  pull cues w :=
    let (_, w) := World.noteFor tag .pull w
    match cues with
    | [] => (.ok .done, [], w)
    | .yield v :: rest => (.ok (.yield v), rest, w)
    | .done :: rest => (.ok .done, rest, w)
    | .panic message :: rest => (.error ⟨message⟩, rest, w)
  jump :=
    if jumps then
      some fun n cues w =>
        let (_, w) := World.noteFor tag (.jump · n) w
        (.ok (n ≤ cues.length), cues.drop n, w)
    else none

def scripted (jumps : Bool) (tag : Option String) (cues : List Cue) : Stream World Value :=
  .source (do World.noteFor tag .start; return cues) (cueSource jumps tag)

def listStream : Value → Stream World Value
  | .list xs => .ofArray xs.toArray
  | x => .once x

def rangeStream : Value → Stream World Value
  | .int n => .source (pure 0) (rangeSource (some n))
  | _ => .empty

def optionOf : Value → Option Value
  | .null => none
  | x => some x

mutual

def Expr.build (env : String → Option Built) : Expr → Building Built
  | .empty => .ok (.values .empty)
  | .items xs => .ok (.values (.ofArray xs.toArray))
  | .view xs => .ok (.values (.view xs.toArray))
  | .option xs => .ok (.values (.ofOption (xs.map List.toArray)))
  | .once v => .ok (.values (.once v))
  | .range start stop => .ok (.values (.source (pure start) (rangeSource stop)))
  | .count start step => .ok (.values (counting start step))
  | .same e => e.build env
  | .reopened e => (e.build env).map (.each .reopen)
  | .all es => (buildAll env es).bind (Built.all (.values .empty))
  | .tree t => .ok (t.elim fun label t => .values (t.stream.map fun n => pure (label n)))
  | .var name =>
    match env name with
    | some b => .ok b
    | none => refuse ("no stream named " ++ name)
  | .scripted jumps tag cues => .ok (.values (Script.scripted jumps tag cues))
  | .nested xs => .ok (.nested (.ofValues xs))
  | .deep k => .ok (.nested (.ofDepth k))
  | .streams es => (buildValues env es).map fun ss => .streams (.ofList ss)
  | .options xs => .ok (.options (.ofArray (xs.map optionOf).toArray))
  | .apply e op => (e.build env).bind (op.apply env)

def buildAll (env : String → Option Built) : List Expr → Building (List Built)
  | [] => .ok []
  | e :: es => (e.build env).bind fun b => (buildAll env es).map (b :: ·)

def buildValues (env : String → Option Built) : List Expr → Building (List (Stream World Value))
  | [] => .ok []
  | e :: es => (e.build env).bind fun b => b.values?.bind fun s =>
    (buildValues env es).map (s :: ·)

def Op.apply (env : String → Option Built) : Op → Built → Building Built
  | .tail n, b => .ok (b.each (.tail n))
  | .limit n, b => .ok (b.each (.limit n))
  | .concat other, b => (other.build env).bind b.concat
  | .map f, b => b.mapValues fun s => .values (s.map f.run)
  | .filter p, b => b.mapValues fun s => .values (s.filter p.run)
  | .filterMap p f, b => b.mapValues fun s => .values (s.filterMap fun x => do
    if ← p.run x then return some (← f.run x) else return none)
  | .distinct, b => b.mapValues fun s => .values s.distinct
  | .distinctBy key, b => b.mapValues fun s => .values (s.distinctBy key.run)
  | .exclude other, b => (other.build env).bind fun o => o.values?.bind fun o =>
    b.mapValues fun s => .values (s.exclude o)
  | .excludeBy other key, b => (other.build env).bind fun o => o.values?.bind fun o =>
    b.mapValues fun s => .values (s.excludeBy key.run o)
  | .flatMap g, b => (g.function env).bind fun g => b.mapValues fun s => .nested (g.flatMap s)
  | .nest g, b => (g.function env).bind fun g => b.mapValues fun s => .nested (g.nest s)
  | .streams g, b => (g.streamOf env).bind fun f =>
    b.mapValues fun s => .streams ⟨Value, f, s.map pure⟩
  | .options, b => b.mapValues fun s => .options (s.map fun x => pure (optionOf x))
  | .flat depth, b => b.nested?.map fun s => .nested { s with stream := s.stream.flat s.book depth }
  | .leaves, b => b.nested?.map fun s => .values (s.stream.leaves s.book)
  | .values, b => b.nested?.map fun s => .values s.stream.values
  | .onlyStreams, b => b.nested?.map fun s => .nested { s with stream := s.stream.onlyStreams }
  | .flatten, b => b.streams?.map fun s => .values (s.stream.flatten s.book)
  | .nonNull, b => b.options?.map fun s => .values s.nonNull

def Nesting.streamOf (env : String → Option Built) :
    Nesting → Building (Value → Stream World Value)
  | .list => .ok listStream
  | .range => .ok rangeStream
  | .empty => .ok fun _ => .empty
  | .expr e => (e.build env).bind fun b => b.values?.map fun s _ => s
  | _ => refuse "not a function to streams of values"

def Nesting.function (env : String → Option Built) : Nesting → Building NestingFunction
  | .list => .ok (.ofStreams listStream)
  | .range => .ok (.ofStreams rangeStream)
  | .empty => .ok (.ofStreams fun _ => .empty)
  | .expr e => (e.build env).bind fun b => b.values?.map fun s => .ofStreams fun _ => s
  | .value => .ok .plain
  | .nest => .ok .ofLists
  | .choose p yes no => (yes.function env).bind fun yes => (no.function env).map fun no =>
    .choose p yes no

end

end PullStream.Script
