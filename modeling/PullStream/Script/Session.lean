import PullStream.Script.Sink

/-!
# Sessions of a script

A session names streams and the cursors opened on them and advances the cursors in any order. Each
step is guarded: it reports its answer or the panic that came out of it, with what was logged on the
way, and whatever it touched stays usable in the state it was left in.
-/

set_option autoImplicit false

namespace PullStream.Script

structure Report where
  outcome : Except Panic Answer
  log : Array Event

/-- An open cursor, whatever its elements are, with the way they are written. -/
structure Handle : Type 1 where
  Item : Type
  element : Element Item
  cursor : Cursor World Item

namespace Handle

def ofBuilt : Built → Act World Handle
  | .values s => s.cursor.andThen fun c => Act.done ⟨Value, .value, c⟩
  | .nested s => s.stream.cursor.andThen fun c => Act.done ⟨_, .nested s.book, c⟩
  | .streams s => s.stream.cursor.andThen fun c => Act.done ⟨_, .stream s.book, c⟩
  | .options s => s.cursor.andThen fun c => Act.done ⟨_, .option, c⟩

inductive Call where
  | step
  | advanceBy (n : Nat)
  | next
  | nth (n : Nat)
  | rest

/-- Writes down an answer of a cursor; the cursor keeps its state also where writing panics. -/
def written {α ρ : Type} (h : Handle) (write : ρ → Run World α) :
    Option (Except Panic ρ × Cursor World h.Item × World) →
      Option (Except Panic α × Handle × World)
  | none => none
  | some (.error p, c, w) => some (.error p, { h with cursor := c }, w)
  | some (.ok r, c, w) =>
    match write r w with
    | none => none
    | some (a, w) => some (a, { h with cursor := c }, w)

def writeStep {α : Type} (write : α → Run World Answer) : Step α → Run World Answer
  | .yield a => (write a).andThen fun x => pure (.yielded x)
  | .done => pure .ended

def call (fuel : Nat) (h : Handle) (w : World) :
    Call → Option (Except Panic Answer × Handle × World)
  | .step => h.written (writeStep (h.element.write fuel)) (h.cursor.step fuel w)
  | .advanceBy n => h.written (fun b => pure (.truth b)) (h.cursor.advanceBy fuel n w)
  | .next => h.written (Sink.writeOption (h.element.write fuel)) (h.cursor.next fuel w)
  | .nth n => h.written (Sink.writeOption (h.element.write fuel)) (h.cursor.nth fuel n w)
  | .rest => h.written (fun xs => pure (.ofArray xs))
    (h.cursor.rest fuel (h.element.write fuel) w)

end Handle

inductive Action where
  | define (name : String) (e : Expr)
  | opened (name : String) (stream : String)
  | sink (stream : String) (s : Sink)
  | call (name : String) (c : Handle.Call)

/-- The streams and cursors of a session; the latest of a name counts. -/
structure Session : Type 1 where
  streams : List (String × Built)
  handles : List (String × Handle)
  world : World

namespace Session

def fresh : Session := ⟨[], [], .fresh⟩

def stream? (s : Session) (name : String) : Option Built := s.streams.lookup name

def handle? (s : Session) (name : String) : Option Handle := s.handles.lookup name

def quiet (s : Session) : Session := { s with world := { s.world with log := #[] } }

def report (outcome : Except Panic Answer) (s : Session) : Report × Session :=
  (⟨outcome, s.world.log⟩, s)

def missing (s : Session) : Report × Session := report (.error ⟨"bad input: no such name"⟩) s

def define (s : Session) (name : String) (e : Expr) : Report × Session :=
  match e.build s.stream? with
  | .ok b => report (.ok .unit) { s with streams := (name, b) :: s.streams }
  | .error p => report (.error p) s

/-- A cursor that panics while it is being opened does not come to exist. -/
def openHandle (s : Session) (name stream : String) : Report × Session :=
  match s.stream? stream with
  | none => s.missing
  | some b =>
    match Handle.ofBuilt b s.world with
    | (.ok h, w) => report (.ok .unit) { s with handles := (name, h) :: s.handles, world := w }
    | (.error p, w) => report (.error p) { s with world := w }

def sink (fuel : Nat) (s : Session) (stream : String) (k : Sink) : Option (Report × Session) :=
  match s.stream? stream with
  | none => some s.missing
  | some b =>
    match k.run fuel b s.world with
    | none => none
    | some (r, w) => some (report r { s with world := w })

def call (fuel : Nat) (s : Session) (name : String) (c : Handle.Call) :
    Option (Report × Session) :=
  match s.handle? name with
  | none => some s.missing
  | some h =>
    match h.call fuel s.world c with
    | none => none
    | some (r, h, w) => some (report r { s with handles := (name, h) :: s.handles, world := w })

/-- One guarded step, with a log of its own. -/
def perform (fuel : Nat) (s : Session) : Action → Option (Report × Session)
  | .define name e => some (s.quiet.define name e)
  | .opened name stream => some (s.quiet.openHandle name stream)
  | .sink stream k => s.quiet.sink fuel stream k
  | .call name c => s.quiet.call fuel name c

def performAll (fuel : Nat) : Session → List Action → Option (List Report)
  | _, [] => some []
  | s, a :: rest =>
    match s.perform fuel a with
    | none => none
    | some (r, s) => (performAll fuel s rest).map (r :: ·)

end Session

/-- Builds a stream once and runs every sink on it. -/
def evaluate (fuel : Nat) (e : Expr) (sinks : List Sink) : Option (Report × List Report) :=
  match Session.fresh.define "stream" e with
  | (built, s) => (s.performAll fuel (sinks.map (.sink "stream"))).map fun reports =>
    (built, reports)

end PullStream.Script
