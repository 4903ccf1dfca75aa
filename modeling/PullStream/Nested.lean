import PullStream.Stream.Combinators

/-!
# Nested streams

An element of a nested stream is a plain value or the name of another stream of such elements.
`Stream.flat` splices streams that lie less than `depth` levels down and yields deeper ones as they
are; `Stream.leaves` has no bound. Both keep one open stream per level and drain it before they pull
the one around it.
-/

set_option autoImplicit false

namespace PullStream

inductive Nested (ι α : Type) where
  | value (a : α)
  | stream (i : ι)
deriving DecidableEq, Repr

namespace Nested

variable {ι κ α : Type}

def isStream : Nested ι α → Bool
  | value _ => false
  | stream _ => true

def value? : Nested ι α → Option α
  | value a => some a
  | stream _ => none

/-- The same element, its stream known by another name. -/
def rename (f : ι → κ) : Nested ι α → Nested κ α
  | value a => value a
  | stream i => stream (f i)

theorem value?_rename (f : ι → κ) (x : Nested ι α) : (x.rename f).value? = x.value? := by
  cases x <;> rfl

end Nested

namespace Stream

variable {W ι κ α β : Type}

def flatVisit (depth : Nat) (level : Nat) : Nested ι α → Act W (Visit ι (Nested ι α))
  | .value a => Act.done (.emit (.value a))
  | .stream i => Act.done (if level < depth then .enter i else .emit (.stream i))

def leafVisit (_level : Nat) : Nested ι α → Act W (Visit ι α)
  | .value a => Act.done (.emit a)
  | .stream i => Act.done (.enter i)

def flat (book : ι → Stream W (Nested ι α)) (depth : Nat) (s : Stream W (Nested ι α)) :
    Stream W (Nested ι α) :=
  if depth = 0 then s
  else if s.knownEmpty then .empty
  else .descending (flatVisit depth) book s

def leaves (book : ι → Stream W (Nested ι α)) (s : Stream W (Nested ι α)) : Stream W α :=
  .descending leafVisit book s

def flatMap (book : ι → Stream W (Nested ι β)) (f : α → Act W (Nested ι β)) (s : Stream W α) :
    Stream W (Nested ι β) :=
  (s.map f).flat book 1

/-- A stream of plain values, ready to stand as a nested stream. -/
def plain (s : Stream W α) : Stream W (Nested ι α) := s.map fun a => Act.done (.value a)

def rename (f : ι → κ) (s : Stream W (Nested ι α)) : Stream W (Nested κ α) :=
  s.map fun x => Act.done (x.rename f)

def values (s : Stream W (Nested ι α)) : Stream W α := s.filterMap fun x => Act.done x.value?

def onlyStreams (s : Stream W (Nested ι α)) : Stream W (Nested ι α) :=
  s.filter fun x => Act.done x.isStream

theorem flat_zero (book : ι → Stream W (Nested ι α)) (s : Stream W (Nested ι α)) :
    s.flat book 0 = s := rfl

end Stream

end PullStream
