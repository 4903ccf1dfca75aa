import PullStream.Stream.Basic

/-!
# Combinators and factories

Each combinator settles at once what it can about the known empty stream and otherwise writes its
stage onto the recipe, so a chain over nothing stays nothing. The equations at the end of each
section say when a stage is left away.
-/

set_option autoImplicit false

namespace PullStream.Stream

variable {W α β κ : Type}

def map (f : α → Act W β) (s : Stream W α) : Stream W β :=
  if s.knownEmpty then .empty else .mapping f s

def filter (p : α → Act W Bool) (s : Stream W α) : Stream W α :=
  if s.knownEmpty then .empty else .filtering p s

def filterMap (f : α → Act W (Option β)) (s : Stream W α) : Stream W β :=
  if s.knownEmpty then .empty else .choosing f s

def nonNull (s : Stream W (Option α)) : Stream W α := s.filterMap Act.done

/-- The elements of `first`, then those of `second`, which is opened when `first` has ended. -/
def concat (first second : Stream W α) : Stream W α :=
  if first.knownEmpty then second
  else if second.knownEmpty then first
  else .joining first second

/-- All but the first `n` elements. -/
def tail (n : Nat) (s : Stream W α) : Stream W α :=
  if n = 0 || s.knownEmpty then s else .skipping n s

/-- At most the first `n` elements. A pull that panics counts. -/
def limit (n : Nat) (s : Stream W α) : Stream W α :=
  if n = 0 || s.knownEmpty then .empty else .capping n s

/-- The first element of each key. -/
def distinctBy [DecidableEq κ] (key : α → Act W κ) (s : Stream W α) : Stream W α :=
  if s.knownEmpty then .empty else .deduplicating inferInstance key s

def distinct [DecidableEq α] (s : Stream W α) : Stream W α := s.distinctBy Act.done

/-- The elements whose key is none of the keys of `other`, which is drained by the first step. -/
def excludeBy [DecidableEq κ] (key : α → Act W κ) (s other : Stream W α) : Stream W α :=
  if s.knownEmpty || other.knownEmpty then s else .excluding inferInstance key other s

def exclude [DecidableEq α] (s other : Stream W α) : Stream W α := s.excludeBy Act.done other

/-- The elements of the streams that the elements name. -/
def flatten {ι : Type} (book : ι → Stream W α) (s : Stream W ι) : Stream W α :=
  if s.knownEmpty then .empty else .flattening book s

theorem map_empty (f : α → Act W β) : (empty : Stream W α).map f = .empty := rfl

theorem empty_concat (s : Stream W α) : concat .empty s = s := rfl

theorem concat_empty (s : Stream W α) : concat s .empty = s := by
  cases s <;> rfl

theorem tail_zero (s : Stream W α) : s.tail 0 = s := rfl

theorem limit_zero (s : Stream W α) : s.limit 0 = .empty := rfl

theorem excludeBy_empty [DecidableEq κ] (key : α → Act W κ) (s : Stream W α) :
    s.excludeBy key .empty = s := by
  simp [excludeBy, knownEmpty]

/-! ## Factories -/

/-- A stream over storage that can be indexed, so that skipping is one jump. -/
def ofArray (xs : Array α) : Stream W α :=
  if xs.isEmpty then .empty else .items xs

def ofOption (xs : Option (Array α)) : Stream W α := (xs.map ofArray).getD .empty

/-- Walks down a list. -/
def listSource : Source W (List α) α where
  pull
    | [], w => (.ok .done, [], w)
    | a :: rest, w => (.ok (.yield a), rest, w)
  jump := none
  again := true

/-- A stream that walks down a list made anew for each session. It is not known to be empty. -/
def ofList (xs : List α) : Stream W α := .source (Act.done xs) listSource

/-- A stream that reads storage in place, element by element. -/
def view (xs : Array α) : Stream W α :=
  if xs.isEmpty then .empty else ofList xs.toList

def once (a : α) : Stream W α := ofList [a]

/-- Every session starts from a state of its own and applies `next` to it until that ends. -/
def generate {σ : Type} (start : Act W σ) (next : σ → W → Except Panic (Step α) × σ × W) :
    Stream W α :=
  .source start { pull := next, jump := none }

/-- A stream over cursors that another stream hands out. -/
def reopen (s : Stream W α) : Stream W α := .fused s

/-- The elements of all the streams, in order. -/
def all (streams : List (Stream W α)) : Stream W α := streams.foldl concat .empty

theorem all_nil : all ([] : List (Stream W α)) = .empty := rfl

theorem all_singleton (s : Stream W α) : all [s] = s := rfl

end PullStream.Stream
