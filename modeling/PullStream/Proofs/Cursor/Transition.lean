import PullStream.Proofs.Cursor.Moves

/-!
# What a move may change

`Becomes` lists, kind by kind, the cursors that a cursor may turn into by one move, whatever the
callbacks and sources below it answer. Invariants of sessions are proved over these transitions and
never look at a move again; `becomes_of_tick` and `becomes_of_skip` say that no move does more.
-/

set_option autoImplicit false

namespace PullStream

variable {W : Type}

namespace Cursor

open Moves

/-- From a stream at the level the visit leads into the one of that name. -/
def Enters {ι β α : Type} (visit : Nat → β → Act W (Visit ι α)) (level : Nat) (i : ι) : Prop :=
  ∃ b w v, visit level b w = (.ok (.enter i), v) ∨ ∃ a, visit level b w = (.ok (.emitAndEnter a i), v)

inductive Becomes : {α : Type} → Cursor W α → Cursor W α → Prop
  | stay {α : Type} (c : Cursor W α) : Becomes c c
  | slice {α : Type} {xs : Array α} {i j : Nat} (h : i ≤ xs.size → j ≤ xs.size) :
      Becomes (.slice xs i) (.slice xs j)
  | source {σ α : Type} {src : Source W σ α} {e e' : Bool} {s s' : σ} :
      Becomes (.source src e s) (.source src e' s')
  | fused {α : Type} {c d : Cursor W α} {e e' : Bool} (h : Becomes c d) :
      Becomes (.fused e c) (.fused e' d)
  | map {β α : Type} {f : β → Act W α} {c d : Cursor W β} (h : Becomes c d) :
      Becomes (.map f c) (.map f d)
  | filter {α : Type} {p : α → Act W Bool} {c d : Cursor W α} (h : Becomes c d) :
      Becomes (.filter p c) (.filter p d)
  | filterMap {β α : Type} {f : β → Act W (Option α)} {c d : Cursor W β} (h : Becomes c d) :
      Becomes (.filterMap f c) (.filterMap f d)
  | first {α : Type} {c d : Cursor W α} {later : Stream W α} (h : Becomes c d) :
      Becomes (.first c later) (.first d later)
  | handOver {α : Type} {c d : Cursor W α} {later : Stream W α} {w w' : W}
      (ho : later.cursor w = (.ok d, w')) : Becomes (.first c later) (.second d)
  | handOverLost {α : Type} {c : Cursor W α} {later : Stream W α} :
      Becomes (.first c later) .empty
  | second {α : Type} {c d : Cursor W α} (h : Becomes c d) : Becomes (.second c) (.second d)
  | tail {α : Type} {m n : Nat} {c d : Cursor W α} (h : Becomes c d) :
      Becomes (.tail n c) (.tail m d)
  | limit {α : Type} {m n : Nat} {c d : Cursor W α} (h : Becomes c d) (hm : m ≤ n) :
      Becomes (.limit n c) (.limit m d)
  | distinct {κ α : Type} {eq : DecidableEq κ} {key : α → Act W κ} {seen seen' : List κ}
      {c d : Cursor W α} (h : Becomes c d) :
      Becomes (.distinct eq key seen c) (.distinct eq key seen' d)
  | drainOpened {κ α : Type} {eq : DecidableEq κ} {key : α → Act W κ} {other : Stream W α}
      {c d : Cursor W α} {w w' : W} (ho : other.cursor w = (.ok d, w')) :
      Becomes (.excludeFresh eq key other c) (.excludeDrain eq key other d [] c)
  | drain {κ α : Type} {eq : DecidableEq κ} {key : α → Act W κ} {other : Stream W α}
      {c d d' : Cursor W α} {keys keys' : List κ} (h : Becomes d d') :
      Becomes (.excludeDrain eq key other d keys c) (.excludeDrain eq key other d' keys' c)
  | drainLost {κ α : Type} {eq : DecidableEq κ} {key : α → Act W κ} {other : Stream W α}
      {c d : Cursor W α} {keys : List κ} :
      Becomes (.excludeDrain eq key other d keys c) (.excludeFresh eq key other c)
  | drained {κ α : Type} {eq : DecidableEq κ} {key : α → Act W κ} {other : Stream W α}
      {c d : Cursor W α} {keys : List κ} :
      Becomes (.excludeDrain eq key other d keys c) (.excludeReady eq key keys c)
  | excludeReady {κ α : Type} {eq : DecidableEq κ} {key : α → Act W κ} {keys : List κ}
      {c d : Cursor W α} (h : Becomes c d) :
      Becomes (.excludeReady eq key keys c) (.excludeReady eq key keys d)
  | flatten {ι α : Type} {book : ι → Stream W α} {c d : Cursor W ι} (h : Becomes c d) :
      Becomes (.flatten book c) (.flatten book d)
  | innerOpened {ι α : Type} {book : ι → Stream W α} {c d : Cursor W ι} {inner : Cursor W α}
      {i : ι} {w w' : W} (h : Becomes c d) (ho : (book i).cursor w = (.ok inner, w')) :
      Becomes (.flatten book c) (.flattenIn book inner d)
  | flattenIn {ι α : Type} {book : ι → Stream W α} {c d : Cursor W α} {outer : Cursor W ι}
      (h : Becomes c d) : Becomes (.flattenIn book c outer) (.flattenIn book d outer)
  | innerEnded {ι α : Type} {book : ι → Stream W α} {c : Cursor W α} {outer : Cursor W ι} :
      Becomes (.flattenIn book c outer) (.flatten book outer)
  | descend {ι β α : Type} {visit : Nat → β → Act W (Visit ι α)} {book : ι → Stream W β}
      {c d : Cursor W β} (h : Becomes c d) : Becomes (.descend visit book c) (.descend visit book d)
  | descentEnded {ι β α : Type} {visit : Nat → β → Act W (Visit ι α)} {book : ι → Stream W β}
      {c : Cursor W β} : Becomes (.descend visit book c) .empty
  | entered {ι β α : Type} {visit : Nat → β → Act W (Visit ι α)} {book : ι → Stream W β}
      {c d e : Cursor W β} {i : ι} {w w' : W} (h : Becomes c d) (hv : Enters visit 0 i)
      (ho : (book i).cursor w = (.ok e, w')) :
      Becomes (.descend visit book c) (.dive visit book 1 e (.descend visit book d))
  | dive {ι β α : Type} {visit : Nat → β → Act W (Visit ι α)} {book : ι → Stream W β}
      {level : Nat} {c d : Cursor W β} {rest : Cursor W α} (h : Becomes c d) :
      Becomes (.dive visit book level c rest) (.dive visit book level d rest)
  | enteredDeeper {ι β α : Type} {visit : Nat → β → Act W (Visit ι α)} {book : ι → Stream W β}
      {level : Nat} {c d e : Cursor W β} {rest : Cursor W α} {i : ι} {w w' : W}
      (h : Becomes c d) (hv : Enters visit level i) (ho : (book i).cursor w = (.ok e, w')) :
      Becomes (.dive visit book level c rest)
        (.dive visit book (level + 1) e (.dive visit book level d rest))
  | surfaced {ι β α : Type} {visit : Nat → β → Act W (Visit ι α)} {book : ι → Stream W β}
      {level : Nat} {c : Cursor W β} {rest : Cursor W α} :
      Becomes (.dive visit book level c rest) rest

end Cursor

namespace Moves

variable {α β ι : Type}

/-- To leave elements out by stepping leads nowhere that a step does not lead. -/
theorem skipBySteps_state (c : Cursor W α) (tick : W → Move α × Cursor W α × W) (n : Nat) (w : W) :
    (skipBySteps c tick n w).2.1 = c ∨ (skipBySteps c tick n w).2.1 = (tick w).2.1 := by
  cases n with
  | zero => exact .inl rfl
  | succ n =>
    right
    rcases h : tick w with ⟨_ | a | _ | p, d, v⟩ <;> simp [skipBySteps, h]

theorem relay_becomes {c : Cursor W β} {wrap : Cursor W β → Cursor W α}
    {onYield : β → Cursor W β → W → Move α × Cursor W α × W} {r : Move β × Cursor W β × W}
    (hw : ∀ d, Cursor.Becomes c d → Cursor.Becomes (wrap c) (wrap d))
    (hy : ∀ b d w, Cursor.Becomes c d → Cursor.Becomes (wrap c) (onYield b d w).2.1)
    (h : Cursor.Becomes c r.2.1) : Cursor.Becomes (wrap c) (relay wrap onYield r).2.1 := by
  rcases r with ⟨_ | b | _ | p, d, w⟩
  · exact hw d h
  · exact hy b d w h
  · exact hw d h
  · exact hw d h

theorem opening_becomes {c lost : Cursor W α} {s : Stream W β} {opened : Cursor W β → Cursor W α}
    {m : Move α} {w : W}
    (ho : ∀ d w', s.cursor w = (.ok d, w') → Cursor.Becomes c (opened d))
    (hl : Cursor.Becomes c lost) : Cursor.Becomes c (opening s opened lost m w).2.1 := by
  unfold opening
  rcases h : s.cursor w with ⟨_ | d, w'⟩
  · exact hl
  · exact ho d w' h

theorem descent_becomes {c rest : Cursor W α} {visit : Nat → β → Act W (Visit ι α)}
    {book : ι → Stream W β} {level : Nat} {b : β} {w : W}
    (hd : ∀ i e v v', Cursor.Enters visit level i → (book i).cursor v = (.ok e, v') →
      Cursor.Becomes c (.dive visit book (level + 1) e rest))
    (hr : Cursor.Becomes c rest) :
    Cursor.Becomes c (descent visit book level b rest w).2.1 := by
  unfold descent
  rcases hv : visit level b w with ⟨_ | ⟨a | i | ⟨a, i⟩⟩, v⟩
  · exact hr
  · exact hr
  · have he : Cursor.Enters visit level i := ⟨b, w, v, .inl hv⟩
    exact opening_becomes (fun e v' h => hd i e v v' he h) hr
  · have he : Cursor.Enters visit level i := ⟨b, w, v, .inr ⟨a, hv⟩⟩
    exact opening_becomes (fun e v' h => hd i e v v' he h) hr

end Moves

namespace Cursor

open Moves

variable {α β ι κ : Type}

/-- No move of the cursor leads anywhere but to what it may become. -/
structure Tracked (c : Cursor W α) : Prop where
  tick : ∀ w, c.Becomes (c.tick w).2.1
  skip : ∀ n w, c.Becomes (c.skip n w).2.1

/-- Most kinds of cursor leave elements out by stepping over them. -/
theorem Tracked.of_tick {c : Cursor W α} (hj : ¬ c.Jumps) (ht : ∀ w, c.Becomes (c.tick w).2.1) :
    c.Tracked where
  tick := ht
  skip n w := by
    rw [skip_eq_skipBySteps hj]
    rcases skipBySteps_state c c.tick n w with hs | hs <;> rw [hs]
    · exact .stay c
    · exact ht w

theorem tracked_slice (xs : Array α) (i : Nat) : (slice xs i : Cursor W α).Tracked where
  tick w := by
    rw [tick_slice]
    rcases hi : xs[i]? with _ | a
    · exact .stay _
    · obtain ⟨hlt, -⟩ := Array.getElem?_eq_some_iff.mp hi
      exact .slice fun _ => hlt
  skip n w := by
    rw [skip_slice]
    split
    · exact .slice fun _ => by omega
    · exact .slice fun _ => Nat.le_refl _

theorem becomes_of_pull {σ : Type} (src : Source W σ α) (ended : Bool) (s : σ) (w : W) :
    (source src ended s).Becomes (pull src ended s w).2.1 := by
  unfold pull
  cases ended
  · rcases src.pull s w with ⟨_ | _ | _, _, _⟩ <;> exact .source
  · exact .source

theorem tracked_source {σ : Type} (src : Source W σ α) (ended : Bool) (s : σ) :
    (source src ended s).Tracked where
  tick := becomes_of_pull src ended s
  skip n w := by
    rw [skip_source]
    rcases src.jump with _ | jump
    · rcases skipBySteps_state (.source src ended s) (pull src ended s) n w with hs | hs
      · simp only [hs]
        exact .stay _
      · simp only [hs]
        exact becomes_of_pull src ended s w
    · cases ended
      · rcases h : jump n s w with ⟨_ | _, _, _⟩ <;> simp only [h] <;> exact .source
      · exact .source

section Stages

variable {c : Cursor W α}

theorem Tracked.fused (hc : c.Tracked) (ended : Bool) : (fused ended c).Tracked where
  tick w := by
    have ht := hc.tick w
    rw [tick_fused]
    cases ended
    · rcases h : c.tick w with ⟨_ | _ | _ | _, d, v⟩ <;> rw [h] at ht <;> exact .fused ht
    · exact .stay _
  skip n w := by
    have hs := hc.skip n w
    rw [skip_fused]
    cases ended
    · rcases h : c.skip n w with ⟨_ | _ | _, d, v⟩ <;> rw [h] at hs <;> exact .fused hs
    · exact .stay _

/-- A stage that hands on the moves of the cursor inside it only has to account for elements. -/
theorem Tracked.relay {wrap : Cursor W α → Cursor W β}
    {onYield : α → Cursor W α → W → Move β × Cursor W β × W} (hc : c.Tracked)
    (hj : ¬ (wrap c).Jumps)
    (ht : ∀ w, (wrap c).tick w = Moves.relay wrap onYield (c.tick w))
    (hw : ∀ d, Becomes c d → Becomes (wrap c) (wrap d))
    (hy : ∀ a d w, Becomes c d → Becomes (wrap c) (onYield a d w).2.1) : (wrap c).Tracked := by
  apply Tracked.of_tick hj
  intro w
  rw [ht]
  exact relay_becomes hw hy (hc.tick w)

theorem Tracked.map (hc : c.Tracked) (f : α → Act W β) : (map f c).Tracked :=
  hc.relay id (tick_map f c) (fun d hd => .map hd) fun a d w hd => by
    rcases f a w with ⟨_ | _, _⟩ <;> exact .map hd

theorem Tracked.filter (hc : c.Tracked) (p : α → Act W Bool) : (filter p c).Tracked :=
  hc.relay id (tick_filter p c) (fun d hd => .filter hd) fun a d w hd => by
    rcases p a w with ⟨_ | _ | _, _⟩ <;> exact .filter hd

theorem Tracked.filterMap (hc : c.Tracked) (f : α → Act W (Option β)) : (filterMap f c).Tracked :=
  hc.relay id (tick_filterMap f c) (fun d hd => .filterMap hd) fun a d w hd => by
    rcases f a w with ⟨_ | _ | _, _⟩ <;> exact .filterMap hd

theorem Tracked.second (hc : c.Tracked) : (second c).Tracked :=
  hc.relay id (tick_second c) (fun _ hd => .second hd) fun _ _ _ hd => .second hd

theorem Tracked.distinct (hc : c.Tracked) (eq : DecidableEq κ) (key : α → Act W κ)
    (seen : List κ) : (distinct eq key seen c).Tracked :=
  hc.relay id (tick_distinct eq key seen c) (fun d hd => .distinct hd) fun a d w hd => by
    rcases key a w with ⟨_ | k, v⟩
    · exact .distinct hd
    · by_cases hk : k ∈ seen <;> simp only [hk, if_true, if_false] <;> exact .distinct hd

theorem Tracked.excludeReady (hc : c.Tracked) (eq : DecidableEq κ) (key : α → Act W κ)
    (keys : List κ) : (excludeReady eq key keys c).Tracked :=
  hc.relay id (tick_excludeReady eq key keys c) (fun d hd => .excludeReady hd) fun a d w hd => by
    rcases key a w with ⟨_ | _, _⟩ <;> exact .excludeReady hd

theorem Tracked.flatten {outer : Cursor W ι} (hc : outer.Tracked) (book : ι → Stream W α) :
    (flatten book outer).Tracked :=
  hc.relay id (tick_flatten book outer) (fun _ hd => .flatten hd) fun _ _ _ hd =>
    opening_becomes (fun _ _ ho => .innerOpened hd ho) (.flatten hd)

theorem Tracked.first (hc : c.Tracked) (later : Stream W α) : (first c later).Tracked := by
  apply Tracked.of_tick id
  intro w
  have ht := hc.tick w
  rw [tick_first]
  rcases h : c.tick w with ⟨_ | _ | _ | _, d, v⟩ <;> rw [h] at ht
  · exact .first ht
  · exact .first ht
  · exact opening_becomes (fun e v' ho => .handOver ho) .handOverLost
  · exact .first ht

theorem Tracked.tail (hc : c.Tracked) (n : Nat) : (tail n c).Tracked := by
  apply Tracked.of_tick id
  intro w
  cases n with
  | zero =>
    rw [tick_tail_zero]
    exact relay_becomes (fun d hd => .tail hd) (fun a d w hd => .tail hd) (hc.tick w)
  | succ n =>
    have hs := hc.skip (n + 1) w
    rw [tick_tail_succ]
    rcases h : c.skip (n + 1) w with ⟨_ | (_ | _) | _, d, v⟩ <;> rw [h] at hs <;> exact .tail hs

theorem Tracked.limit (hc : c.Tracked) (n : Nat) : (limit n c).Tracked := by
  apply Tracked.of_tick id
  intro w
  cases n with
  | zero => exact .stay _
  | succ n =>
    have ht := hc.tick w
    rw [tick_limit_succ]
    rcases h : c.tick w with ⟨_ | _ | _ | _, d, v⟩ <;> rw [h] at ht <;> exact .limit ht (by omega)

theorem tracked_excludeFresh (eq : DecidableEq κ) (key : α → Act W κ) (other : Stream W α)
    (c : Cursor W α) : (excludeFresh eq key other c).Tracked :=
  .of_tick id fun _ => opening_becomes (fun _ _ ho => .drainOpened ho) (.stay _)

theorem Tracked.excludeDrain {d : Cursor W α} (hd : d.Tracked) (eq : DecidableEq κ)
    (key : α → Act W κ) (other : Stream W α) (keys : List κ) (c : Cursor W α) :
    (excludeDrain eq key other d keys c).Tracked := by
  apply Tracked.of_tick id
  intro w
  have ht := hd.tick w
  rw [tick_excludeDrain]
  rcases h : d.tick w with ⟨_ | a | _ | _, e, v⟩ <;> rw [h] at ht
  · exact .drain ht
  · rcases hk : key a v with ⟨_ | k, v'⟩ <;> simp only [hk]
    · exact .drainLost
    · exact .drain ht
  · exact .drained
  · exact .drainLost

theorem Tracked.flattenIn {inner : Cursor W α} (hi : inner.Tracked) (book : ι → Stream W α)
    (outer : Cursor W ι) : (flattenIn book inner outer).Tracked := by
  apply Tracked.of_tick id
  intro w
  have ht := hi.tick w
  rw [tick_flattenIn]
  rcases h : inner.tick w with ⟨_ | _ | _ | _, d, v⟩ <;> rw [h] at ht
  · exact .flattenIn ht
  · exact .flattenIn ht
  · exact .innerEnded
  · exact .flattenIn ht

theorem Tracked.descend {c : Cursor W β} (hc : c.Tracked) (visit : Nat → β → Act W (Visit ι α))
    (book : ι → Stream W β) : (descend visit book c).Tracked := by
  apply Tracked.of_tick id
  intro w
  have ht := hc.tick w
  rw [tick_descend]
  rcases h : c.tick w with ⟨_ | b | _ | _, d, v⟩ <;> rw [h] at ht
  · exact .descend ht
  · exact descent_becomes (fun i e v v' hv ho => .entered ht hv ho) (.descend ht)
  · exact .descentEnded
  · exact .descend ht

theorem Tracked.dive {top : Cursor W β} (hc : top.Tracked) (visit : Nat → β → Act W (Visit ι α))
    (book : ι → Stream W β) (level : Nat) (rest : Cursor W α) :
    (dive visit book level top rest).Tracked := by
  apply Tracked.of_tick id
  intro w
  have ht := hc.tick w
  rw [tick_dive]
  rcases h : top.tick w with ⟨_ | b | _ | _, d, v⟩ <;> rw [h] at ht
  · exact .dive ht
  · exact descent_becomes (fun i e v v' hv ho => .enteredDeeper ht hv ho) (.dive ht)
  · exact .surfaced
  · exact .dive ht

end Stages

theorem tracked (c : Cursor W α) : c.Tracked := by
  induction c with
  | empty => exact .of_tick id fun w => .stay .empty
  | slice xs i => exact tracked_slice xs i
  | source src ended s => exact tracked_source src ended s
  | fused ended c ih => exact ih.fused ended
  | map f c ih => exact ih.map f
  | filter p c ih => exact ih.filter p
  | filterMap f c ih => exact ih.filterMap f
  | first c later ih => exact ih.first later
  | second c ih => exact ih.second
  | tail n c ih => exact ih.tail n
  | limit n c ih => exact ih.limit n
  | distinct eq key seen c ih => exact ih.distinct eq key seen
  | excludeFresh eq key other c => exact tracked_excludeFresh eq key other c
  | excludeDrain eq key other d keys c ihd => exact ihd.excludeDrain eq key other keys c
  | excludeReady eq key keys c ih => exact ih.excludeReady eq key keys
  | flatten book outer ih => exact ih.flatten book
  | flattenIn book inner outer ihi => exact ihi.flattenIn book outer
  | descend visit book c ih => exact ih.descend visit book
  | dive visit book level top rest iht => exact iht.dive visit book level rest

theorem becomes_of_tick {c d : Cursor W α} {m : Move α} {w w' : W} (h : c.tick w = (m, d, w')) :
    c.Becomes d := by
  have hc := c.tracked.tick w
  rwa [h] at hc

theorem becomes_of_skip {c d : Cursor W α} {n : Nat} {m : Skip} {w w' : W}
    (h : c.skip n w = (m, d, w')) : c.Becomes d := by
  have hc := c.tracked.skip n w
  rwa [h] at hc

end Cursor

end PullStream
