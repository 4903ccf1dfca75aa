import PullStream.Stream.Basic

/-!
# Cursors

A cursor is the state of one session over a stream. It advances by small moves: a move asks each
supplier below it for at most one move, so it always comes back, and a cursor that discards elements
answers `silent` instead of looping. `Cursor.tick` is one move towards the next element and
`Cursor.skip` one move towards leaving `n` elements out. Both return the state that a panic leaves.

`Stream.cursor` opens a session. It starts the leftmost source of the recipe and nothing else.
-/

set_option autoImplicit false

namespace PullStream

inductive Cursor (W : Type) : Type → Type 1 where
  | empty {α : Type} : Cursor W α
  | slice {α : Type} (xs : Array α) (index : Nat) : Cursor W α
  | source {σ α : Type} (src : Source W σ α) (ended : Bool) (state : σ) : Cursor W α
  | fused {α : Type} (ended : Bool) (c : Cursor W α) : Cursor W α
  | map {β α : Type} (f : β → Act W α) (c : Cursor W β) : Cursor W α
  | filter {α : Type} (p : α → Act W Bool) (c : Cursor W α) : Cursor W α
  | filterMap {β α : Type} (f : β → Act W (Option α)) (c : Cursor W β) : Cursor W α
  | first {α : Type} (c : Cursor W α) (second : Stream W α) : Cursor W α
  | second {α : Type} (c : Cursor W α) : Cursor W α
  | tail {α : Type} (pending : Nat) (c : Cursor W α) : Cursor W α
  | limit {α : Type} (remaining : Nat) (c : Cursor W α) : Cursor W α
  | distinct {κ α : Type} (eq : DecidableEq κ) (key : α → Act W κ) (seen : List κ)
      (c : Cursor W α) : Cursor W α
  | excludeFresh {κ α : Type} (eq : DecidableEq κ) (key : α → Act W κ) (other : Stream W α)
      (c : Cursor W α) : Cursor W α
  | excludeDrain {κ α : Type} (eq : DecidableEq κ) (key : α → Act W κ) (other : Stream W α)
      (drained : Cursor W α) (keys : List κ) (c : Cursor W α) : Cursor W α
  | excludeReady {κ α : Type} (eq : DecidableEq κ) (key : α → Act W κ) (keys : List κ)
      (c : Cursor W α) : Cursor W α
  | flatten {ι α : Type} (book : ι → Stream W α) (outer : Cursor W ι) : Cursor W α
  | flattenIn {ι α : Type} (book : ι → Stream W α) (inner : Cursor W α) (outer : Cursor W ι) :
      Cursor W α
  | descend {ι β α : Type} (visit : Nat → β → Act W (Visit ι α)) (book : ι → Stream W β)
      (c : Cursor W β) : Cursor W α
  | dive {ι β α : Type} (visit : Nat → β → Act W (Visit ι α)) (book : ι → Stream W β)
      (level : Nat) (top : Cursor W β) (rest : Cursor W α) : Cursor W α

namespace Stream

variable {W : Type}

def cursor : {α : Type} → Stream W α → Act W (Cursor W α)
  | _, .empty => Act.done .empty
  | _, .items xs => Act.done (.slice xs 0)
  | _, .source start src => start.andThen fun s => Act.done (.source src false s)
  | _, .fused s => s.cursor.andThen fun c => Act.done (.fused false c)
  | _, .deferred start book => start.andThen fun i => (book i).cursor
  | _, .mapping f s => s.cursor.andThen fun c => Act.done (.map f c)
  | _, .filtering p s => s.cursor.andThen fun c => Act.done (.filter p c)
  | _, .choosing f s => s.cursor.andThen fun c => Act.done (.filterMap f c)
  | _, .joining a b => a.cursor.andThen fun c => Act.done (.first c b)
  | _, .skipping n s => s.cursor.andThen fun c => Act.done (.tail n c)
  | _, .capping n s => s.cursor.andThen fun c => Act.done (.limit n c)
  | _, .deduplicating eq key s => s.cursor.andThen fun c => Act.done (.distinct eq key [] c)
  | _, .excluding eq key other s =>
    s.cursor.andThen fun c => Act.done (.excludeFresh eq key other c)
  | _, .flattening book s => s.cursor.andThen fun c => Act.done (.flatten book c)
  | _, .descending visit book s => s.cursor.andThen fun c => Act.done (.descend visit book c)

end Stream

inductive Move (α : Type) where
  | silent
  | yield (a : α)
  | done
  | panic (p : Panic)

/-- One move of leaving elements out: `ongoing n` says that `n` are still to be left out, and
`finished` whether the end did not come first. -/
inductive Skip where
  | ongoing (n : Nat)
  | finished (complete : Bool)
  | panic (p : Panic)

structure Moves (W α : Type) : Type 1 where
  tick : W → Move α × Cursor W α × W
  skip : Nat → W → Skip × Cursor W α × W

namespace Moves

variable {W α β : Type}

/-- Leaves elements out by stepping over them one by one. -/
def skipBySteps (c : Cursor W α) (tick : W → Move α × Cursor W α × W) :
    Nat → W → Skip × Cursor W α × W
  | 0, w => (.finished true, c, w)
  | n+1, w =>
    match tick w with
    | (.silent, c, w) => (.ongoing (n+1), c, w)
    | (.yield _, c, w) => (if n = 0 then .finished true else .ongoing n, c, w)
    | (.done, c, w) => (.finished false, c, w)
    | (.panic p, c, w) => (.panic p, c, w)

def stepping (c : Cursor W α) (tick : W → Move α × Cursor W α × W) : Moves W α :=
  ⟨tick, skipBySteps c tick⟩

/-- Hands every move but an element on unchanged, with the state wrapped. -/
def relay (wrap : Cursor W β → Cursor W α)
    (onYield : β → Cursor W β → W → Move α × Cursor W α × W) :
    Move β × Cursor W β × W → Move α × Cursor W α × W
  | (.silent, c, w) => (.silent, wrap c, w)
  | (.yield b, c, w) => onYield b c w
  | (.done, c, w) => (.done, wrap c, w)
  | (.panic p, c, w) => (.panic p, wrap c, w)

/-- Storage is read by index. An element that is read is cloned, which is taken to have no effect. -/
def slice (xs : Array α) (index : Nat) : Moves W α where
  tick w :=
    match xs[index]? with
    | some a => (.yield a, .slice xs (index + 1), w)
    | none => (.done, .slice xs index, w)
  skip n w :=
    if n ≤ xs.size - index then (.finished true, .slice xs (index + n), w)
    else (.finished false, .slice xs xs.size, w)

/-- A supplier is pulled until it has reported its end, and behind it only if it is to be asked
again. -/
def pull {σ : Type} (src : Source W σ α) (ended : Bool) (s : σ) (w : W) :
    Move α × Cursor W α × W :=
  if ended then (.done, .source src true s, w)
  else match src.pull s w with
    | (.ok (.yield a), s, w) => (.yield a, .source src false s, w)
    | (.ok .done, s, w) => (.done, .source src (!src.again) s, w)
    | (.error p, s, w) => (.panic p, .source src false s, w)

def source {σ : Type} (src : Source W σ α) (ended : Bool) (s : σ) : Moves W α where
  tick := pull src ended s
  skip := match src.jump with
    | none => skipBySteps (.source src ended s) (pull src ended s)
    | some jump => fun n w =>
      if ended then (.finished (n == 0), .source src true s, w)
      else match jump n s w with
        | (.ok complete, s, w) => (.finished complete, .source src (!complete) s, w)
        | (.error p, s, w) => (.panic p, .source src false s, w)

/-- The end and a skip that met it are final, whatever the cursor inside would go on to do. -/
def fused (ended : Bool) (c : Cursor W α) (inner : Moves W α) : Moves W α where
  tick w :=
    if ended then (.done, .fused true c, w)
    else match inner.tick w with
      | (.silent, c, w) => (.silent, .fused false c, w)
      | (.yield a, c, w) => (.yield a, .fused false c, w)
      | (.done, c, w) => (.done, .fused true c, w)
      | (.panic p, c, w) => (.panic p, .fused false c, w)
  skip n w :=
    if ended then (.finished (n == 0), .fused true c, w)
    else match inner.skip n w with
      | (.ongoing n, c, w) => (.ongoing n, .fused false c, w)
      | (.finished complete, c, w) => (.finished complete, .fused (!complete) c, w)
      | (.panic p, c, w) => (.panic p, .fused false c, w)

/-- What the opening of a stream leads to inside a move: a panic loses the stream. -/
def opening (s : Stream W β) (opened : Cursor W β → Cursor W α) (lost : Cursor W α)
    (m : Move α) (w : W) : Move α × Cursor W α × W :=
  match s.cursor w with
  | (.ok c, w) => (m, opened c, w)
  | (.error p, w) => (.panic p, lost, w)

/-- One element met by a descent whose state without it is `rest`. -/
def descent {ι : Type} (visit : Nat → β → Act W (Visit ι α)) (book : ι → Stream W β) (level : Nat)
    (b : β) (rest : Cursor W α) (w : W) : Move α × Cursor W α × W :=
  match visit level b w with
  | (.ok (.emit a), w) => (.yield a, rest, w)
  | (.ok (.enter i), w) =>
    opening (book i) (fun c => .dive visit book (level + 1) c rest) rest .silent w
  | (.ok (.emitAndEnter a i), w) =>
    opening (book i) (fun c => .dive visit book (level + 1) c rest) rest (.yield a) w
  | (.error p, w) => (.panic p, rest, w)

end Moves

namespace Cursor

variable {W : Type}

open Moves in
def moves : {α : Type} → Cursor W α → Moves W α
  | _, .empty => stepping .empty fun w => (.done, .empty, w)
  | _, .slice xs index => Moves.slice xs index
  | _, .source src ended s => Moves.source src ended s
  | _, .fused ended c => Moves.fused ended c c.moves
  | _, .map f c => stepping (.map f c) fun w =>
    relay (.map f) (fun b c w => match f b w with
      | (.ok a, w) => (.yield a, .map f c, w)
      | (.error p, w) => (.panic p, .map f c, w)) (c.moves.tick w)
  | _, .filter p c => stepping (.filter p c) fun w =>
    relay (.filter p) (fun a c w => match p a w with
      | (.ok true, w) => (.yield a, .filter p c, w)
      | (.ok false, w) => (.silent, .filter p c, w)
      | (.error q, w) => (.panic q, .filter p c, w)) (c.moves.tick w)
  | _, .filterMap f c => stepping (.filterMap f c) fun w =>
    relay (.filterMap f) (fun b c w => match f b w with
      | (.ok (some a), w) => (.yield a, .filterMap f c, w)
      | (.ok none, w) => (.silent, .filterMap f c, w)
      | (.error p, w) => (.panic p, .filterMap f c, w)) (c.moves.tick w)
  | _, .first c later => stepping (.first c later) fun w =>
    match c.moves.tick w with
    | (.silent, c, w) => (.silent, .first c later, w)
    | (.yield a, c, w) => (.yield a, .first c later, w)
    | (.done, _, w) => opening later .second .empty .silent w
    | (.panic p, c, w) => (.panic p, .first c later, w)
  | _, .second c => stepping (.second c) fun w =>
    relay .second (fun a c w => (.yield a, .second c, w)) (c.moves.tick w)
  | _, .tail 0 c => stepping (.tail 0 c) fun w =>
    relay (.tail 0) (fun a c w => (.yield a, .tail 0 c, w)) (c.moves.tick w)
  | _, .tail (n+1) c => stepping (.tail (n+1) c) fun w =>
    match c.moves.skip (n+1) w with
    | (.ongoing m, c, w) => (.silent, .tail m c, w)
    | (.finished true, c, w) => (.silent, .tail 0 c, w)
    | (.finished false, c, w) => (.done, .tail 0 c, w)
    | (.panic p, c, w) => (.panic p, .tail 0 c, w)
  | _, .limit 0 c => stepping (.limit 0 c) fun w => (.done, .limit 0 c, w)
  | _, .limit (n+1) c => stepping (.limit (n+1) c) fun w =>
    match c.moves.tick w with
    | (.silent, c, w) => (.silent, .limit (n+1) c, w)
    | (.yield a, c, w) => (.yield a, .limit n c, w)
    | (.done, c, w) => (.done, .limit 0 c, w)
    | (.panic p, c, w) => (.panic p, .limit n c, w)
  | _, .distinct eq key seen c => stepping (.distinct eq key seen c) fun w =>
    relay (.distinct eq key seen) (fun a c w => match key a w with
      | (.ok k, w) =>
        if k ∈ seen then (.silent, .distinct eq key seen c, w)
        else (.yield a, .distinct eq key (k :: seen) c, w)
      | (.error p, w) => (.panic p, .distinct eq key seen c, w)) (c.moves.tick w)
  | _, .excludeFresh eq key other c => stepping (.excludeFresh eq key other c) fun w =>
    opening other (fun d => .excludeDrain eq key other d [] c)
      (.excludeFresh eq key other c) .silent w
  | _, .excludeDrain eq key other d keys c =>
    stepping (.excludeDrain eq key other d keys c) fun w =>
    match d.moves.tick w with
    | (.silent, d, w) => (.silent, .excludeDrain eq key other d keys c, w)
    | (.yield a, d, w) =>
      match key a w with
      | (.ok k, w) => (.silent, .excludeDrain eq key other d (k :: keys) c, w)
      | (.error p, w) => (.panic p, .excludeFresh eq key other c, w)
    | (.done, _, w) => (.silent, .excludeReady eq key keys c, w)
    | (.panic p, _, w) => (.panic p, .excludeFresh eq key other c, w)
  | _, .excludeReady eq key keys c => stepping (.excludeReady eq key keys c) fun w =>
    relay (.excludeReady eq key keys) (fun a c w => match key a w with
      | (.ok k, w) => (if k ∈ keys then .silent else .yield a, .excludeReady eq key keys c, w)
      | (.error p, w) => (.panic p, .excludeReady eq key keys c, w)) (c.moves.tick w)
  | _, .flatten book outer => stepping (.flatten book outer) fun w =>
    relay (.flatten book) (fun i outer w =>
      opening (book i) (fun c => .flattenIn book c outer) (.flatten book outer) .silent w)
      (outer.moves.tick w)
  | _, .flattenIn book inner outer => stepping (.flattenIn book inner outer) fun w =>
    match inner.moves.tick w with
    | (.silent, inner, w) => (.silent, .flattenIn book inner outer, w)
    | (.yield a, inner, w) => (.yield a, .flattenIn book inner outer, w)
    | (.done, _, w) => (.silent, .flatten book outer, w)
    | (.panic p, inner, w) => (.panic p, .flattenIn book inner outer, w)
  | _, .descend visit book c => stepping (.descend visit book c) fun w =>
    match c.moves.tick w with
    | (.silent, c, w) => (.silent, .descend visit book c, w)
    | (.yield b, c, w) => descent visit book 0 b (.descend visit book c) w
    | (.done, _, w) => (.done, .empty, w)
    | (.panic p, c, w) => (.panic p, .descend visit book c, w)
  | _, .dive visit book level top rest => stepping (.dive visit book level top rest) fun w =>
    match top.moves.tick w with
    | (.silent, top, w) => (.silent, .dive visit book level top rest, w)
    | (.yield b, top, w) => descent visit book level b (.dive visit book level top rest) w
    | (.done, _, w) => (.silent, rest, w)
    | (.panic p, top, w) => (.panic p, .dive visit book level top rest, w)

variable {α : Type}

def tick (c : Cursor W α) : W → Move α × Cursor W α × W := c.moves.tick

def skip (c : Cursor W α) : Nat → W → Skip × Cursor W α × W := c.moves.skip

/-- How many streams a descent has open. -/
def height : {α : Type} → Cursor W α → Nat
  | _, .descend _ _ _ => 1
  | _, .dive _ _ _ _ rest => rest.height + 1
  | _, _ => 0

/-- A descent without the stream it opened last. -/
def ascend : {α : Type} → Cursor W α → Cursor W α
  | _, .descend _ _ _ => .empty
  | _, .dive _ _ _ _ rest => rest
  | _, c => c

end Cursor

end PullStream
