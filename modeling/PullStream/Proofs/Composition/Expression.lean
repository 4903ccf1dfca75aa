import PullStream.Proofs.Composition.Combinator

/-!
# Outcomes of compositions

`Composition` is the syntax of streams that combinators make of finite sources. It has two readings:
`stream` builds the recipe, and `outcomes` computes by lists alone, stage by stage, what a holder
sees who steps one cursor to its end and catches every panic. `composition_outcomes` says that the
two agree, for every nesting of the combinators.
-/

set_option autoImplicit false

namespace PullStream

variable {W α β : Type}

/-- A supplier of the caller's that starts without a panic and answers by a finite script. -/
structure Supply (W α : Type) : Type 1 where
  σ : Type
  start : Act W σ
  next : σ → W → Except Panic (Step α) × σ × W
  outcomes : List (Outcome α)
  opens : ∀ w, ∃ s v, start w = (.ok s, v) ∧ Source.Follows { pull := next, jump := none } s outcomes

/-- Streams of streams are given by names. `leaves` carries a number of levels, for its outcomes
alone, below which its streams are not nested. -/
inductive Composition (W : Type) : Type → Type 1
  | array {α : Type} (xs : Array α) : Composition W α
  | view {α : Type} (xs : Array α) : Composition W α
  | supply {α : Type} (s : Supply W α) : Composition W α
  | reopen {α : Type} (e : Composition W α) : Composition W α
  | map {β α : Type} (f : Callback W β α) (e : Composition W β) : Composition W α
  | filter {α : Type} (p : Callback W α Bool) (e : Composition W α) : Composition W α
  | filterMap {β α : Type} (f : Callback W β (Option α)) (e : Composition W β) : Composition W α
  | distinctBy {κ α : Type} [DecidableEq κ] (key : Callback W α κ) (e : Composition W α) :
      Composition W α
  | excludeBy {κ α : Type} [DecidableEq κ] (key : Callback W α κ) (e other : Composition W α) :
      Composition W α
  | concat {α : Type} (first second : Composition W α) : Composition W α
  | tail {α : Type} (n : Nat) (e : Composition W α) : Composition W α
  | limit {α : Type} (n : Nat) (e : Composition W α) : Composition W α
  | flatten {ι α : Type} (book : ι → Composition W α) (e : Composition W ι) : Composition W α
  | flat {ι α : Type} (book : ι → Composition W (Nested ι α)) (depth : Nat)
      (e : Composition W (Nested ι α)) : Composition W (Nested ι α)
  | flatMap {ι β α : Type} (book : ι → Composition W (Nested ι α))
      (f : Callback W β (Nested ι α)) (e : Composition W β) : Composition W (Nested ι α)
  | leaves {ι α : Type} (book : ι → Composition W (Nested ι α)) (levels : Nat)
      (e : Composition W (Nested ι α)) : Composition W α

namespace Composition

def stream : {α : Type} → Composition W α → Stream W α
  | _, array xs => .ofArray xs
  | _, view xs => .view xs
  | _, supply s => .generate s.start s.next
  | _, reopen e => e.stream.reopen
  | _, map f e => e.stream.map f.run
  | _, filter p e => e.stream.filter p.run
  | _, filterMap f e => e.stream.filterMap f.run
  | _, distinctBy key e => e.stream.distinctBy key.run
  | _, excludeBy key e other => e.stream.excludeBy key.run other.stream
  | _, concat first second => first.stream.concat second.stream
  | _, tail n e => e.stream.tail n
  | _, limit n e => e.stream.limit n
  | _, flatten book e => e.stream.flatten fun i => (book i).stream
  | _, flat book depth e => e.stream.flat (fun i => (book i).stream) depth
  | _, flatMap book f e => e.stream.flatMap (fun i => (book i).stream) f.run
  | _, leaves book _ e => e.stream.leaves fun i => (book i).stream

/-- The stream is known to be empty without a step. -/
def knownEmpty : {α : Type} → Composition W α → Bool
  | _, array xs => xs.isEmpty
  | _, view xs => xs.isEmpty
  | _, supply _ => false
  | _, reopen _ => false
  | _, map _ e => e.knownEmpty
  | _, filter _ e => e.knownEmpty
  | _, filterMap _ e => e.knownEmpty
  | _, distinctBy _ e => e.knownEmpty
  | _, excludeBy _ e _ => e.knownEmpty
  | _, concat first second => first.knownEmpty && second.knownEmpty
  | _, tail _ e => e.knownEmpty
  | _, limit n e => n == 0 || e.knownEmpty
  | _, flatten _ e => e.knownEmpty
  | _, flat _ _ e => e.knownEmpty
  | _, flatMap _ _ e => e.knownEmpty
  | _, leaves _ _ _ => false

/-- Elements and panics in order, by lists alone. -/
def outcomes : {α : Type} → Composition W α → List (Outcome α)
  | _, array xs => xs.toList.map .yield
  | _, view xs => xs.toList.map .yield
  | _, supply s => s.outcomes
  | _, reopen e => e.outcomes
  | _, map f e => Outcome.map f.answer e.outcomes
  | _, filter p e => Outcome.filter p.answer e.outcomes
  | _, filterMap f e => Outcome.choose f.answer e.outcomes
  | _, distinctBy key e => Outcome.distinct key.answer [] e.outcomes
  | _, excludeBy key e other =>
    if other.knownEmpty then e.outcomes
    else Outcome.without key.answer (Outcome.keys key.answer other.outcomes) e.outcomes
  | _, concat first second => first.outcomes ++ second.outcomes
  | _, tail n e => Outcome.behind n e.outcomes
  | _, limit n e => e.outcomes.take n
  | _, flatten book e => Outcome.spread (fun i => (book i).outcomes) e.outcomes
  | _, flat book depth e => Outcome.flat (fun i => (book i).outcomes) depth e.outcomes
  | _, flatMap book f e =>
    Outcome.flat (fun i => (book i).outcomes) 1 (Outcome.map f.answer e.outcomes)
  | _, leaves book levels e =>
    Outcome.values (Outcome.flat (fun i => (book i).outcomes) levels e.outcomes)

/-- What is excluded can be drained under its key without a panic, and what `leaves` flattens is
not nested deeper than it says. -/
def Sound : {α : Type} → Composition W α → Prop
  | _, array _ => True
  | _, view _ => True
  | _, supply _ => True
  | _, reopen e => e.Sound
  | _, map _ e => e.Sound
  | _, filter _ e => e.Sound
  | _, filterMap _ e => e.Sound
  | _, distinctBy _ e => e.Sound
  | _, excludeBy key e other => e.Sound ∧ other.Sound ∧
    ∀ o ∈ other.outcomes, ∃ b k, o = .yield b ∧ key.answer b = .ok k
  | _, concat first second => first.Sound ∧ second.Sound
  | _, tail _ e => e.Sound
  | _, limit _ e => e.Sound
  | _, flatten book e => e.Sound ∧ ∀ i, (book i).Sound
  | _, flat book _ e => e.Sound ∧ ∀ i, (book i).Sound
  | _, flatMap book _ e => e.Sound ∧ ∀ i, (book i).Sound
  | _, leaves book levels e => e.Sound ∧ (∀ i, (book i).Sound) ∧
    ∀ i, .yield (.stream i) ∉ Outcome.flat (fun i => (book i).outcomes) levels e.outcomes

theorem knownEmpty_stream (e : Composition W α) : e.stream.knownEmpty = e.knownEmpty := by
  induction e with
  | array xs | view xs =>
    simp only [stream, knownEmpty, Stream.ofArray, Stream.view]
    cases xs.isEmpty <;> rfl
  | supply | reopen | leaves => rfl
  | map _ e ih | filter _ e ih | filterMap _ e ih | distinctBy _ e ih | excludeBy _ e _ ih _
  | tail _ e ih | limit _ e ih | flatten _ e _ ih | flat _ _ e _ ih =>
    simp [stream, knownEmpty, ih]
  | concat first second ihf ihs => simp [stream, knownEmpty, ihf, ihs]
  | flatMap book f e _ ih => simp [stream, knownEmpty, Stream.flatMap, ih]

theorem steady_array (xs : Array α) :
    (Stream.ofArray xs : Stream W α).Steady (xs.toList.map .yield) := by
  unfold Stream.ofArray
  split
  · next h =>
    obtain rfl : xs = #[] := by simpa using h
    exact Stream.steady_empty
  · exact fun w => ⟨.slice xs 0, w, rfl, Cursor.plays_slice xs 0, trivial⟩

theorem steady_view (xs : Array α) :
    (Stream.view xs : Stream W α).Steady (xs.toList.map .yield) := by
  unfold Stream.view
  split
  · next h =>
    obtain rfl : xs = #[] := by simpa using h
    exact Stream.steady_empty
  · exact fun w => ⟨_, w, rfl, (Stream.follows_listSource xs.toList).plays, rfl⟩

theorem steady (e : Composition W α) (h : e.Sound) : e.stream.Steady e.outcomes := by
  induction e with
  | array xs => exact steady_array xs
  | view xs => exact steady_view xs
  | supply s =>
    intro w
    obtain ⟨s₀, v, hs, hf⟩ := s.opens w
    refine ⟨.source { pull := s.next, jump := none } false s₀, v, ?_, hf.plays, rfl⟩
    simp only [stream, Stream.generate, Stream.cursor, Act.andThen, hs, Act.done]
  | reopen e ih => exact (ih h).reopen
  | map f e ih => exact (ih h).map f
  | filter p e ih => exact (ih h).filter p
  | filterMap f e ih => exact (ih h).filterMap f
  | distinctBy key e ih => exact (ih h).distinctBy key
  | excludeBy key e other ih iho =>
    have hs := (ih h.1).excludeBy key (iho h.2.1) h.2.2
    rw [knownEmpty_stream] at hs
    exact hs
  | concat first second ihf ihs => exact (ihf h.1).concat (ihs h.2)
  | tail n e ih => exact (ih h).tail n
  | limit n e ih => exact (ih h).limit n
  | flatten book e ihb ih => exact (ih h.1).flatten fun i => ihb i (h.2 i)
  | flat book depth e ihb ih => exact (ih h.1).flat (fun i => ihb i (h.2 i)) depth
  | flatMap book f e ihb ih => exact (ih h.1).flatMap (fun i => ihb i (h.2 i)) f
  | leaves book levels e ihb ih => exact (ih h.1).leaves (fun i => ihb i (h.2.1 i)) h.2.2

end Composition

/-- One cursor of a composition, stepped to its end with every panic caught, shows exactly the
outcomes that the lists compute. Against a stream that is known to be empty, to exclude is to leave
the stream as it is, so it calls no key. -/
theorem composition_outcomes (e : Composition W α) (h : e.Sound) :
    (∀ w, ∃ c v d u, e.stream.cursor w = (.ok c, v) ∧
      Settles (c.outcomes · v) (e.outcomes, d, u)) ∧
    ∀ (κ : Type) [DecidableEq κ] (key : Callback W α κ) (other : Composition W α),
      other.knownEmpty = true → (Composition.excludeBy key e other).stream = e.stream := by
  constructor
  · intro w
    obtain ⟨c, v, hc, hp, -⟩ := e.steady h w
    obtain ⟨d, u, hd⟩ := hp.outcomes v
    exact ⟨c, v, d, u, hc, hd⟩
  · intro κ _ key other ho
    rw [← other.knownEmpty_stream] at ho
    simp [Composition.stream, Stream.excludeBy, ho]

/-- A callback that leaves the world alone. -/
def Callback.plain (f : α → Except Panic β) : Callback W α β where
  run a w := (f a, w)
  answer := f
  fixed _ _ := rfl

/-- Ten times a number, with a panic on two. -/
def tenfold : Callback Unit Nat Nat := .plain fun n => if n = 2 then .error ⟨"two"⟩ else .ok (10 * n)

/-- A stream within a stream. -/
def nest : Fin 2 → Composition Unit (Nested (Fin 2) Nat)
  | 0 => .array #[.value 1, .stream 1]
  | 1 => .array #[.value 2]

def medley : Composition Unit Nat :=
  .concat (.tail 1 (.limit 4 (.map tenfold (.array #[1, 2, 3, 4, 5]))))
    (.leaves nest 2 (.array #[.stream 0, .value 7]))

theorem medley_sound : medley.Sound := by
  refine ⟨trivial, trivial, fun i => ?_, by decide⟩
  match i with
  | 0 => trivial
  | 1 => trivial

theorem composition_outcomes_medley :
    ∃ c v d u, medley.stream.cursor () = (.ok c, v) ∧ Settles (c.outcomes · v)
      ([.panic ⟨"two"⟩, .yield 30, .yield 40, .yield 1, .yield 2, .yield 7], d, u) :=
  (composition_outcomes medley medley_sound).1 ()

end PullStream
