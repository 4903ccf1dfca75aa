import PullStream.Proofs.Cursor.Skipping
import PullStream.Proofs.Descent
import PullStream.Nested

/-!
# Outcomes of one stage

For each combinator, what it makes of a list of outcomes, and that its cursor does so around every
cursor that has these outcomes. Callbacks answer by their argument alone, with a value or a panic;
what else they do to the world does not matter.
-/

set_option autoImplicit false

namespace PullStream

variable {W ι κ α β : Type}

/-- A callback that for each argument answers one value or panics in one way. -/
structure Callback (W β α : Type) where
  run : β → Act W α
  answer : β → Except Panic α
  fixed : ∀ b w, (run b w).1 = answer b

theorem Callback.run_eq (f : Callback W β α) (b : β) (w : W) :
    ∃ v, f.run b w = (f.answer b, v) :=
  ⟨(f.run b w).2, by rw [← f.fixed b w]⟩

namespace Outcome

/-- What a call leads to that answers an element, none, or panics. -/
def chosen : Except Panic (Option α) → List (Outcome α)
  | .ok (some a) => [yield a]
  | .ok none => []
  | .error p => [panic p]

/-- Each element becomes what `f` answers on it, nothing, or the panic of its own call. -/
def choose (f : β → Except Panic (Option α)) : List (Outcome β) → List (Outcome α) :=
  spread fun b => chosen (f b)

def map (f : β → Except Panic α) : List (Outcome β) → List (Outcome α) :=
  choose fun b => (f b).map some

def filter (f : α → Except Panic Bool) : List (Outcome α) → List (Outcome α) :=
  choose fun a => (f a).map fun keep => if keep then some a else none

/-- The elements whose key is none of `keys`. -/
def without [DecidableEq κ] (key : α → Except Panic κ) (keys : List κ) :
    List (Outcome α) → List (Outcome α) :=
  choose fun a => (key a).map fun k => if k ∈ keys then none else some a

/-- The first element of each key that is not among those already seen. -/
def distinct [DecidableEq κ] (key : α → Except Panic κ) :
    List κ → List (Outcome α) → List (Outcome α)
  | _, [] => []
  | seen, panic p :: os => panic p :: distinct key seen os
  | seen, yield a :: os => match key a with
    | .ok k => if k ∈ seen then distinct key seen os else yield a :: distinct key (k :: seen) os
    | .error p => panic p :: distinct key seen os

/-- The keys of the elements. -/
def keys (key : α → Except Panic κ) (os : List (Outcome α)) : List κ :=
  os.filterMap fun
    | yield a => (key a).toOption
    | panic _ => none

/-- Nested streams, whose outcomes are given by name, opened `depth` levels deep. -/
def flat (named : ι → List (Outcome (Nested ι α))) :
    Nat → List (Outcome (Nested ι α)) → List (Outcome (Nested ι α))
  | 0 => id
  | depth+1 => spread fun
    | .value a => [yield (.value a)]
    | .stream i => flat named depth (named i)

/-- The plain values. -/
def values : List (Outcome (Nested ι α)) → List (Outcome α) := choose fun x => .ok x.value?

end Outcome

namespace Cursor

open Moves Outcome

variable {os : List (Outcome α)}

/-- The move that shows what a call has answered. -/
def shown : Except Panic (Option α) → Move α
  | .ok (some a) => .yield a
  | .ok none => .silent
  | .error p => .panic p

/-- Each of the combinators that decide about one element at a time is an instance of this. -/
theorem Plays.choose {os : List (Outcome β)} {c : Cursor W β} {around : Cursor W β → Cursor W α}
    {onYield : β → Cursor W β → W → Move α × Cursor W α × W} {f : β → Except Panic (Option α)}
    (h : c.Plays os) (ht : ∀ c w, (around c).tick w = Moves.relay around onYield (c.tick w))
    (hy : ∀ b d v, ∃ u, onYield b d v = (shown (f b), around d, u)) :
    (around c).Plays (Outcome.choose f os) := by
  apply h.relay ht
  intro b d v rest hd
  obtain ⟨u, hu⟩ := hy b d v
  rw [hu]
  rcases f b with p | (_ | a)
  · exact ⟨rest, rfl, hd⟩
  · exact hd
  · exact ⟨rest, rfl, hd⟩

theorem Plays.map {os : List (Outcome β)} {c : Cursor W β} (h : c.Plays os) (f : Callback W β α) :
    (map f.run c).Plays (Outcome.map f.answer os) := by
  apply h.choose (tick_map f.run)
  intro b d v
  obtain ⟨u, hu⟩ := f.run_eq b v
  refine ⟨u, ?_⟩
  rw [hu]
  cases f.answer b <;> rfl

theorem Plays.filter {c : Cursor W α} (h : c.Plays os) (p : Callback W α Bool) :
    (filter p.run c).Plays (Outcome.filter p.answer os) := by
  apply h.choose (tick_filter p.run)
  intro a d v
  obtain ⟨u, hu⟩ := p.run_eq a v
  refine ⟨u, ?_⟩
  rw [hu]
  rcases p.answer a with q | (_ | _) <;> rfl

theorem Plays.filterMap {os : List (Outcome β)} {c : Cursor W β} (h : c.Plays os)
    (f : Callback W β (Option α)) : (filterMap f.run c).Plays (Outcome.choose f.answer os) := by
  apply h.choose (tick_filterMap f.run)
  intro b d v
  obtain ⟨u, hu⟩ := f.run_eq b v
  refine ⟨u, ?_⟩
  rw [hu]
  rcases f.answer b with p | (_ | a) <;> rfl

theorem Plays.excludeReady [eq : DecidableEq κ] {c : Cursor W α} (h : c.Plays os)
    (key : Callback W α κ) (keys : List κ) :
    (excludeReady eq key.run keys c).Plays (Outcome.without key.answer keys os) := by
  apply h.choose (tick_excludeReady eq key.run keys)
  intro a d v
  obtain ⟨u, hu⟩ := key.run_eq a v
  refine ⟨u, ?_⟩
  rw [hu]
  rcases key.answer a with p | k
  · rfl
  · by_cases hk : k ∈ keys <;> simp [Except.map, hk, shown]

theorem Plays.distinct [eq : DecidableEq κ] {c : Cursor W α} (h : c.Plays os)
    (key : Callback W α κ) (seen : List κ) :
    (distinct eq key.run seen c).Plays (Outcome.distinct key.answer seen os) := by
  have hs : ∀ seen (c : Cursor W α) w d v, c.tick w = (.silent, d, v) →
      (Cursor.distinct eq key.run seen c).tick w = (.silent, .distinct eq key.run seen d, v) := by
    intro seen c w d v h
    rw [tick_distinct, h]
    rfl
  induction os generalizing c seen with
  | nil =>
    apply h.wrap_nil (hs seen)
    intro c w d v h
    rw [tick_distinct, h]
    rfl
  | cons o os ih =>
    cases o with
    | yield a =>
      apply h.wrap_yield (hs seen)
      intro c w d v h hd
      obtain ⟨u, hu⟩ := key.run_eq a v
      simp only [tick_distinct, h, Moves.relay, hu, Outcome.distinct]
      rcases key.answer a with p | k
      · exact ⟨_, rfl, ih hd seen⟩
      · by_cases hk : k ∈ seen
        · simp only [hk, if_true]
          exact ih hd seen
        · simp only [hk, if_false]
          exact ⟨_, rfl, ih hd (k :: seen)⟩
    | panic p =>
      apply h.wrap_panic (hs seen)
      intro c w d v h hd
      rw [tick_distinct, h]
      exact ⟨_, rfl, ih hd seen⟩

theorem Plays.limit {c : Cursor W α} (h : c.Plays os) (n : Nat) :
    (limit n c).Plays (os.take n) := by
  have hs : ∀ n (c : Cursor W α) w d v, c.tick w = (.silent, d, v) →
      (Cursor.limit (n + 1) c).tick w = (.silent, .limit (n + 1) d, v) := by
    intro n c w d v h
    rw [tick_limit_succ, h]
  induction n generalizing c os with
  | zero => exact .of_met fun _ => rfl
  | succ n ih =>
    rcases os with _ | ⟨a | p, os⟩
    · apply h.wrap_nil (hs n)
      intro c w d v h
      rw [tick_limit_succ, h]
      rfl
    · apply h.wrap_yield (hs n)
      intro c w d v h hd
      rw [tick_limit_succ, h]
      exact ⟨_, rfl, ih hd⟩
    · apply h.wrap_panic (hs n)
      intro c w d v h hd
      rw [tick_limit_succ, h]
      exact ⟨_, rfl, ih hd⟩

/-- A cursor that shows what the inner one shows, and at its end goes on to other outcomes. -/
theorem Plays.passing {c : Cursor W α} {rest : List (Outcome α)} (h : c.Plays os)
    (around : Cursor W α → Cursor W α)
    (hs : ∀ c w d v, c.tick w = (.silent, d, v) → (around c).tick w = (.silent, around d, v))
    (hy : ∀ c w a d v, c.tick w = (.yield a, d, v) → (around c).tick w = (.yield a, around d, v))
    (hp : ∀ c w p d v, c.tick w = (.panic p, d, v) → (around c).tick w = (.panic p, around d, v))
    (hd : ∀ c w d v, c.tick w = (.done, d, v) → Met Plays rest ((around c).tick w)) :
    (around c).Plays (os ++ rest) := by
  induction os generalizing c with
  | nil => exact h.wrap_nil hs hd
  | cons o os ih =>
    cases o with
    | yield a =>
      apply h.wrap_yield hs
      intro c w d v h hd
      rw [hy c w a d v h]
      exact ⟨_, rfl, ih hd⟩
    | panic p =>
      apply h.wrap_panic hs
      intro c w d v h hd
      rw [hp c w p d v h]
      exact ⟨_, rfl, ih hd⟩

theorem Plays.fused {c : Cursor W α} (h : c.Plays os) : (fused false c).Plays os := by
  rw [← List.append_nil os]
  apply h.passing (Cursor.fused false)
  · intro c w d v h
    simp [tick_fused, h]
  · intro c w a d v h
    simp [tick_fused, h]
  · intro c w p d v h
    simp [tick_fused, h]
  · intro c w d v h
    simp [tick_fused, h, Met]

theorem Plays.second {c : Cursor W α} (h : c.Plays os) : (second c).Plays os :=
  h.handed_on tick_second

theorem Plays.first {c : Cursor W α} (h : c.Plays os) {later : Stream W α}
    {rest : List (Outcome α)} (hl : later.Plays rest) : (first c later).Plays (os ++ rest) := by
  apply h.passing (Cursor.first · later)
  · intro c w d v h
    rw [tick_first, h]
  · intro c w a d v h
    rw [tick_first, h]
  · intro c w p d v h
    rw [tick_first, h]
  · intro c w d v h
    obtain ⟨e, u, he, hp⟩ := hl v
    simp only [tick_first, h, opening, he]
    exact hp.second

/-- Keys only matter by which there are. -/
theorem without_congr [DecidableEq κ] (key : α → Except Panic κ) {ks ls : List κ}
    (h : ∀ k, k ∈ ks ↔ k ∈ ls) : without key ks = without key ls := by
  simp only [without, h]

/-- While the other stream is drained, its keys are put to those already there. -/
theorem Plays.excludeDrain [eq : DecidableEq κ] {c : Cursor W α} (h : c.Plays os)
    {key : Callback W α κ} {other : Stream W α} {d : Cursor W α} {os' : List (Outcome α)}
    (hd : d.Plays os') (hk : ∀ o ∈ os', ∃ b k, o = .yield b ∧ key.answer b = .ok k)
    (known : List κ) : (excludeDrain eq key.run other d known c).Plays
      (without key.answer (known ++ keys key.answer os') os) := by
  have hs : ∀ known (d : Cursor W α) w e v, d.tick w = (.silent, e, v) →
      (Cursor.excludeDrain eq key.run other d known c).tick w =
        (.silent, .excludeDrain eq key.run other e known c, v) := by
    intro known d w e v h
    rw [tick_excludeDrain, h]
  induction os' generalizing d known with
  | nil =>
    apply hd.wrap_nil (hs known)
    intro d w e v hd
    rw [tick_excludeDrain, hd, show keys key.answer [] = [] from rfl, List.append_nil]
    exact h.excludeReady key known
  | cons o os' ih =>
    obtain ⟨b, k, rfl, hb⟩ := hk _ List.mem_cons_self
    apply hd.wrap_yield (hs known)
    intro d w e v hd he
    obtain ⟨u, hu⟩ := key.run_eq b v
    rw [hb] at hu
    simp only [tick_excludeDrain, hd, hu]
    have hp := ih he (fun o ho => hk o (List.mem_cons_of_mem _ ho)) (k :: known)
    have hkeys : keys key.answer (.yield b :: os') = k :: keys key.answer os' := by
      simp only [keys, List.filterMap_cons, hb, Except.toOption]
    have hw : without key.answer (known ++ k :: keys key.answer os') =
        without key.answer (k :: known ++ keys key.answer os') :=
      without_congr key.answer fun _ => by simp [or_left_comm]
    rw [hkeys, hw]
    exact hp

theorem Plays.excludeFresh [eq : DecidableEq κ] {c : Cursor W α} (h : c.Plays os)
    {key : Callback W α κ} {other : Stream W α} {os' : List (Outcome α)} (ho : other.Plays os')
    (hk : ∀ o ∈ os', ∃ b k, o = .yield b ∧ key.answer b = .ok k) :
    (excludeFresh eq key.run other c).Plays (without key.answer (keys key.answer os') os) := by
  apply Plays.of_met
  intro w
  obtain ⟨d, v, hd, hp⟩ := ho w
  simp only [tick_excludeFresh, opening, hd]
  exact h.excludeDrain hp hk []

theorem Plays.flattenIn {book : ι → Stream W α} {outer : Cursor W ι} {inner : Cursor W α}
    {rest : List (Outcome α)} (h : inner.Plays os) (ho : (flatten book outer).Plays rest) :
    (flattenIn book inner outer).Plays (os ++ rest) := by
  apply h.passing (Cursor.flattenIn book · outer)
  · intro c w d v h
    rw [tick_flattenIn, h]
  · intro c w a d v h
    rw [tick_flattenIn, h]
  · intro c w p d v h
    rw [tick_flattenIn, h]
  · intro c w d v h
    rw [tick_flattenIn, h]
    exact ho

theorem Plays.flatten {is : List (Outcome ι)} {outer : Cursor W ι} (h : outer.Plays is)
    {book : ι → Stream W α} {named : ι → List (Outcome α)} (hb : ∀ i, (book i).Plays (named i)) :
    (flatten book outer).Plays (spread named is) := by
  apply h.relay (tick_flatten book)
  intro i d v rest hd
  obtain ⟨c, u, hc, hp⟩ := hb i v
  simp only [opening, hc]
  exact hp.flattenIn hd

end Cursor

section Nesting

open Outcome

variable {book : ι → Stream W (Nested ι α)} {named : ι → List (Outcome (Nested ι α))}

theorem Outcome.spread_append (f : β → List (Outcome α)) (os os' : List (Outcome β)) :
    spread f (os ++ os') = spread f os ++ spread f os' :=
  List.flatMap_append

/-- Streams that lie less than the depth down are entered. -/
theorem spliced_flat (hb : ∀ i, (book i).Plays (named i)) {depth level k : Nat}
    (hk : level + k = depth) (os : List (Outcome (Nested ι α))) :
    Spliced (Stream.flatVisit depth) book level os (flat named k os) := by
  induction k generalizing level os with
  | zero =>
    have hl : ¬ level < depth := by omega
    induction os with
    | nil => exact .nil
    | cons o os ih =>
      rcases o with (a | i) | p
      · exact .emit (fun w => ⟨w, rfl⟩) ih
      · exact .emit (fun w => ⟨w, by simp [Stream.flatVisit, Act.done, hl]⟩) ih
      · exact .panic ih
  | succ k ihk =>
    have hl : level < depth := by omega
    induction os with
    | nil => exact .nil
    | cons o os ih =>
      rcases o with (a | i) | p
      · exact .emit (fun w => ⟨w, rfl⟩) ih
      · have hv : ∀ w : W, ∃ j v, Stream.flatVisit depth level (.stream i : Nested ι α) w =
            (.ok (.enter j), v) ∧ (book j).Plays (named i) :=
          fun w => ⟨i, w, by simp [Stream.flatVisit, Act.done, hl], hb i⟩
        exact .enter hv (ihk (by omega) (named i)) ih
      · exact .panic ih

/-- Where so many levels leave no stream unopened, the plain values are what all levels come to. -/
theorem spliced_leaves (hb : ∀ i, (book i).Plays (named i)) {k : Nat}
    {os : List (Outcome (Nested ι α))} (hk : ∀ i, .yield (.stream i) ∉ flat named k os)
    (level : Nat) : Spliced Stream.leafVisit book level os (values (flat named k os)) := by
  induction k generalizing level os with
  | zero =>
    induction os with
    | nil => exact .nil
    | cons o os ih =>
      have ho := ih fun i hi => hk i (List.mem_cons_of_mem o hi)
      rcases o with (a | i) | p
      · exact .emit (fun w => ⟨w, rfl⟩) ho
      · exact absurd List.mem_cons_self (hk i)
      · exact .panic ho
  | succ k ihk =>
    induction os with
    | nil => exact .nil
    | cons o os ih =>
      rcases o with (a | i) | p
      · have ho := ih fun i hi => hk i (List.mem_cons_of_mem _ hi)
        exact .emit (fun w => ⟨w, rfl⟩) ho
      · have hf : flat named (k + 1) (.yield (.stream i) :: os) =
            flat named k (named i) ++ flat named (k + 1) os := rfl
        rw [hf] at hk ⊢
        have ho := ih fun j hj => hk j (List.mem_append_right _ hj)
        have hi := ihk (fun j hj => hk j (List.mem_append_left _ hj)) (level + 1)
        rw [values, choose, spread_append]
        exact .enter (fun w => ⟨i, w, rfl, hb i⟩) hi ho
      · have ho := ih fun i hi => hk i (List.mem_cons_of_mem _ hi)
        exact .panic ho

theorem Cursor.Plays.flat {os : List (Outcome (Nested ι α))} {c : Cursor W (Nested ι α)}
    (h : c.Plays os) (hb : ∀ i, (book i).Plays (named i)) (depth : Nat) :
    (Cursor.descend (Stream.flatVisit depth) book c).Plays (Outcome.flat named depth os) :=
  h.descend (spliced_flat hb (Nat.zero_add depth) os)

theorem Cursor.Plays.leaves {os : List (Outcome (Nested ι α))} {c : Cursor W (Nested ι α)}
    (h : c.Plays os) (hb : ∀ i, (book i).Plays (named i)) {k : Nat}
    (hk : ∀ i, .yield (.stream i) ∉ Outcome.flat named k os) :
    (Cursor.descend Stream.leafVisit book c).Plays (values (Outcome.flat named k os)) :=
  h.descend (spliced_leaves hb hk 0)

end Nesting

end PullStream
