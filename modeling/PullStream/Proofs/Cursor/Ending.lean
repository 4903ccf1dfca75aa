import PullStream.Proofs.Cursor.Resting

/-!
# Ended cursors

`Ended` is the shape of a cursor that has reported its end: every move of it is answered on the spot
and leaves the cursor and the world as they are. Each kind of cursor has its lemma that a move which
reports the end leaves this shape, whatever state panics have left before. A supplier that is asked
again behind its end has to rest there.
-/

set_option autoImplicit false

namespace PullStream

variable {W α β ι κ : Type}

namespace Cursor

open Moves

/-- A move of the cursor meets nothing below that could still go on. -/
def Ended : {α : Type} → Cursor W α → Prop
  | _, .empty => True
  | _, .slice xs index => index = xs.size
  | _, .source src ended s => ended = true ∨ src.AtRest s
  | _, .fused ended _ => ended = true
  | _, .map _ c => c.Ended
  | _, .filter _ c => c.Ended
  | _, .filterMap _ c => c.Ended
  | _, .second c => c.Ended
  | _, .tail pending c => pending = 0 ∧ c.Ended
  | _, .limit remaining _ => remaining = 0
  | _, .distinct _ _ _ c => c.Ended
  | _, .excludeReady _ _ _ c => c.Ended
  | _, .flatten _ outer => outer.Ended
  | _, _ => False

theorem relay_ended {wrap : Cursor W β → Cursor W α}
    {onYield : β → Cursor W β → W → Move α × Cursor W α × W} {c : Cursor W β} {w : W}
    (h : c.tick w = (.done, c, w)) : relay wrap onYield (c.tick w) = (.done, wrap c, w) := by
  rw [h]
  rfl

theorem pull_ended {σ : Type} {src : Source W σ α} {ended : Bool} {s : σ}
    (h : ended = true ∨ src.AtRest s) (w : W) :
    pull src ended s w = (.done, source src ended s, w) := by
  rcases h with rfl | h
  · rfl
  · cases ended
    · simp [pull, h.still, h.again]
    · rfl

theorem Ended.tick {c : Cursor W α} (h : c.Ended) (w : W) : c.tick w = (.done, c, w) := by
  induction c with
  | empty => rfl
  | slice xs i =>
    rw [tick_slice, Array.getElem?_eq_none (Nat.le_of_eq h.symm)]
  | source src ended s => exact pull_ended h w
  | fused ended c ih =>
    rw [show ended = true from h, tick_fused]
    rfl
  | map f c ih => exact relay_ended (ih h)
  | filter p c ih => exact relay_ended (ih h)
  | filterMap f c ih => exact relay_ended (ih h)
  | second c ih => exact relay_ended (ih h)
  | tail n c ih =>
    obtain ⟨rfl, hc⟩ := h
    exact relay_ended (ih hc)
  | limit n c ih =>
    obtain rfl : n = 0 := h
    rfl
  | distinct eq key seen c ih => exact relay_ended (ih h)
  | excludeReady eq key keys c ih => exact relay_ended (ih h)
  | flatten book outer ih => exact relay_ended (ih h)
  | first | excludeFresh | excludeDrain | flattenIn | descend | dive => exact h.elim

theorem skipBySteps_ended {c : Cursor W α} {tick : W → Move α × Cursor W α × W} {w : W}
    (h : tick w = (.done, c, w)) (n : Nat) :
    skipBySteps c tick n w = (.finished (n == 0), c, w) := by
  cases n with
  | zero => rfl
  | succ n => simp [skipBySteps, h]

theorem Ended.skip {c : Cursor W α} (h : c.Ended) (n : Nat) (w : W) :
    c.skip n w = (.finished (n == 0), c, w) := by
  have ht := h.tick w
  cases c with
  | slice xs i =>
    obtain rfl : i = xs.size := h
    rw [skip_slice, Nat.sub_self]
    cases n <;> rfl
  | source src ended s =>
    rw [skip_source]
    rcases hj : src.jump with _ | jump
    · exact skipBySteps_ended ht n
    · rcases h with rfl | h
      · rfl
      · cases h.steps.symm.trans hj
  | fused ended c =>
    obtain rfl : ended = true := h
    rfl
  | _ =>
    rw [skip_eq_skipBySteps id]
    exact skipBySteps_ended ht n

theorem relay_done {wrap : Cursor W β → Cursor W α}
    {onYield : β → Cursor W β → W → Move α × Cursor W α × W} {r : Move β × Cursor W β × W}
    {d : Cursor W α} {w : W} (h : relay wrap onYield r = (.done, d, w))
    (hy : ∀ b c w, (onYield b c w).1 ≠ .done) : ∃ c, r = (.done, c, w) ∧ d = wrap c := by
  rcases r with ⟨_ | b | _ | p, c, v⟩
  · cases h
  · exact absurd (congrArg Prod.fst h) (hy b c v)
  · cases h
    exact ⟨c, rfl, rfl⟩
  · cases h

theorem opening_not_done {s : Stream W β} {opened : Cursor W β → Cursor W α} {lost : Cursor W α}
    {m : Move α} {w : W} (hm : m ≠ .done) : (opening s opened lost m w).1 ≠ .done := by
  unfold opening
  rcases s.cursor w with ⟨_ | c, v⟩
  · exact nofun
  · exact hm

theorem descent_not_done {visit : Nat → β → Act W (Visit ι α)} {book : ι → Stream W β}
    {level : Nat} {b : β} {rest : Cursor W α} {w : W} :
    (descent visit book level b rest w).1 ≠ .done := by
  unfold descent
  rcases visit level b w with ⟨_ | ⟨a | i | ⟨a, i⟩⟩, v⟩
  · exact nofun
  · exact nofun
  · exact opening_not_done nofun
  · exact opening_not_done nofun

theorem skipBySteps_false {c d : Cursor W α} {tick : W → Move α × Cursor W α × W} {n : Nat}
    {w w' : W} (h : skipBySteps c tick n w = (.finished false, d, w')) :
    tick w = (.done, d, w') := by
  cases n with
  | zero => cases h
  | succ n =>
    rcases ht : tick w with ⟨_ | a | _ | p, e, v⟩ <;> simp only [skipBySteps, ht] at h
    · cases h
    · split at h <;> cases h
    · cases h
      rfl
    · cases h

/-- A move that reports the end leaves an ended cursor. -/
structure Closes (c : Cursor W α) : Prop where
  tick : ∀ {w d w'}, c.tick w = (.done, d, w') → d.Ended
  skip : ∀ {n w d w'}, c.skip n w = (.finished false, d, w') → d.Ended

/-- Leaving elements out by stepping, the end comes by a step. -/
theorem Closes.of_tick {c : Cursor W α} (hj : ¬ c.Jumps)
    (ht : ∀ w d w', c.tick w = (.done, d, w') → d.Ended) : c.Closes where
  tick h := ht _ _ _ h
  skip h := by
    rw [skip_eq_skipBySteps hj] at h
    exact ht _ _ _ (skipBySteps_false h)

theorem Closes.of_not_done {c : Cursor W α} (hj : ¬ c.Jumps) (ht : ∀ w, (c.tick w).1 ≠ .done) :
    c.Closes :=
  .of_tick hj fun w _ _ h => absurd (congrArg Prod.fst h) (ht w)

theorem closes_slice {xs : Array α} {i : Nat} (hi : i ≤ xs.size) :
    (slice xs i : Cursor W α).Closes where
  tick {w d w'} h := by
    rw [tick_slice] at h
    rcases ha : xs[i]? with _ | a <;> rw [ha] at h
    · cases h
      exact Nat.le_antisymm hi (Array.getElem?_eq_none_iff.mp ha)
    · cases h
  skip {n w d w'} h := by
    rw [skip_slice] at h
    split at h
    · cases h
    · cases h
      rfl

section Source

variable {σ : Type} {src : Source W σ α}

theorem ended_of_pull (hr : src.Rests) {ended : Bool} {s : σ} {d : Cursor W α} {w w' : W}
    (h : pull src ended s w = (.done, d, w')) : d.Ended := by
  unfold pull at h
  cases ended
  · rcases hp : src.pull s w with ⟨_ | _ | _, s', v⟩ <;> simp [hp] at h
    obtain ⟨rfl, -⟩ := h
    cases ha : src.again with
    | true => exact .inr (hr ha hp)
    | false => exact .inl rfl
  · cases h
    exact .inl rfl

theorem closes_source (hr : src.Rests) (ended : Bool) (s : σ) : (source src ended s).Closes where
  tick h := ended_of_pull hr h
  skip {n w d w'} h := by
    rw [skip_source] at h
    rcases hj : src.jump with _ | jump <;> simp only [hj] at h
    · exact ended_of_pull hr (skipBySteps_false h)
    · cases ended
      · rcases hp : jump n s w with ⟨_ | complete, s', v⟩ <;> simp [hp] at h
        obtain ⟨rfl, rfl, -⟩ := h
        exact .inl rfl
      · simp at h
        obtain ⟨-, rfl, -⟩ := h
        exact .inl rfl

end Source

theorem closes_fused (ended : Bool) (c : Cursor W α) : (fused ended c).Closes where
  tick {w d w'} h := by
    rw [tick_fused] at h
    cases ended
    · rcases ht : c.tick w with ⟨_ | _ | _ | _, e, v⟩ <;> simp [ht] at h
      obtain ⟨rfl, -⟩ := h
      rfl
    · cases h
      rfl
  skip {n w d w'} h := by
    rw [skip_fused] at h
    cases ended
    · rcases hs : c.skip n w with ⟨_ | complete | _, e, v⟩ <;> simp [hs] at h
      obtain ⟨rfl, rfl, -⟩ := h
      rfl
    · simp at h
      obtain ⟨-, rfl, -⟩ := h
      rfl

section Stages

variable {c : Cursor W α}

/-- A stage that hands on the moves of the cursor inside it, with elements never the end. -/
theorem Closes.relay {wrap : Cursor W α → Cursor W β}
    {onYield : α → Cursor W α → W → Move β × Cursor W β × W} (hc : c.Closes)
    (hj : ¬ (wrap c).Jumps)
    (ht : ∀ w, (wrap c).tick w = Moves.relay wrap onYield (c.tick w))
    (hw : ∀ d, d.Ended → (wrap d).Ended) (hy : ∀ a d w, (onYield a d w).1 ≠ .done) :
    (wrap c).Closes := by
  apply Closes.of_tick hj
  intro w d w' h
  rw [ht] at h
  obtain ⟨e, he, rfl⟩ := relay_done h hy
  exact hw e (hc.tick he)

theorem Closes.map (hc : c.Closes) (f : α → Act W β) : (map f c).Closes :=
  hc.relay id (tick_map f c) (fun _ => id) fun a d w => by
    rcases f a w with ⟨_ | _, _⟩ <;> simp

theorem Closes.filter (hc : c.Closes) (p : α → Act W Bool) : (filter p c).Closes :=
  hc.relay id (tick_filter p c) (fun _ => id) fun a d w => by
    rcases p a w with ⟨_ | _ | _, _⟩ <;> simp

theorem Closes.filterMap (hc : c.Closes) (f : α → Act W (Option β)) : (filterMap f c).Closes :=
  hc.relay id (tick_filterMap f c) (fun _ => id) fun a d w => by
    rcases f a w with ⟨_ | _ | _, _⟩ <;> simp

theorem Closes.second (hc : c.Closes) : (second c).Closes :=
  hc.relay id (tick_second c) (fun _ => id) fun _ _ _ => nofun

theorem Closes.distinct (hc : c.Closes) (eq : DecidableEq κ) (key : α → Act W κ)
    (seen : List κ) : (distinct eq key seen c).Closes :=
  hc.relay id (tick_distinct eq key seen c) (fun _ => id) fun a d w => by
    rcases key a w with ⟨_ | k, v⟩
    · nofun
    · by_cases hk : k ∈ seen <;> simp [hk]

theorem Closes.excludeReady (hc : c.Closes) (eq : DecidableEq κ) (key : α → Act W κ)
    (keys : List κ) : (excludeReady eq key keys c).Closes :=
  hc.relay id (tick_excludeReady eq key keys c) (fun _ => id) fun a d w => by
    rcases key a w with ⟨_ | k, v⟩
    · nofun
    · by_cases hk : k ∈ keys <;> simp [hk]

theorem Closes.flatten {outer : Cursor W ι} (hc : outer.Closes) (book : ι → Stream W α) :
    (flatten book outer).Closes :=
  hc.relay id (tick_flatten book outer) (fun _ => id) fun _ _ _ => opening_not_done nofun

theorem Closes.tail (hc : c.Closes) (n : Nat) : (tail n c).Closes := by
  apply Closes.of_tick id
  intro w d w' h
  cases n with
  | zero =>
    rw [tick_tail_zero] at h
    obtain ⟨e, he, rfl⟩ := relay_done h fun a d w => nofun
    exact ⟨rfl, hc.tick he⟩
  | succ n =>
    rw [tick_tail_succ] at h
    rcases hs : c.skip (n + 1) w with ⟨_ | (_ | _) | _, e, v⟩ <;> rw [hs] at h <;> cases h
    exact ⟨rfl, hc.skip hs⟩

theorem closes_limit (n : Nat) (c : Cursor W α) : (limit n c).Closes := by
  apply Closes.of_tick id
  intro w d w' h
  cases n with
  | zero =>
    cases h
    rfl
  | succ n =>
    rw [tick_limit_succ] at h
    rcases ht : c.tick w with ⟨_ | _ | _ | _, e, v⟩ <;> rw [ht] at h <;> cases h
    rfl

theorem closes_first (c : Cursor W α) (later : Stream W α) : (first c later).Closes := by
  apply Closes.of_not_done id
  intro w
  rw [tick_first]
  rcases c.tick w with ⟨_ | _ | _ | _, d, v⟩
  · nofun
  · nofun
  · exact opening_not_done nofun
  · nofun

theorem closes_excludeDrain (eq : DecidableEq κ) (key : α → Act W κ) (other : Stream W α)
    (d : Cursor W α) (keys : List κ) (c : Cursor W α) :
    (excludeDrain eq key other d keys c).Closes := by
  apply Closes.of_not_done id
  intro w
  rw [tick_excludeDrain]
  rcases d.tick w with ⟨_ | a | _ | _, e, v⟩
  · nofun
  · rcases hk : key a v with ⟨_ | _, _⟩ <;> simp only [hk] <;> nofun
  · nofun
  · nofun

theorem closes_flattenIn (book : ι → Stream W α) (inner : Cursor W α) (outer : Cursor W ι) :
    (flattenIn book inner outer).Closes := by
  apply Closes.of_not_done id
  intro w
  rw [tick_flattenIn]
  rcases inner.tick w with ⟨_ | _ | _ | _, d, v⟩ <;> nofun

theorem closes_descend (visit : Nat → β → Act W (Visit ι α)) (book : ι → Stream W β)
    (c : Cursor W β) : (descend visit book c).Closes := by
  apply Closes.of_tick id
  intro w d w' h
  rw [tick_descend] at h
  rcases ht : c.tick w with ⟨_ | b | _ | _, e, v⟩ <;> rw [ht] at h
  · cases h
  · exact absurd (congrArg Prod.fst h) descent_not_done
  · cases h
    trivial
  · cases h

theorem closes_dive (visit : Nat → β → Act W (Visit ι α)) (book : ι → Stream W β) (level : Nat)
    (top : Cursor W β) (rest : Cursor W α) : (dive visit book level top rest).Closes := by
  apply Closes.of_not_done id
  intro w
  rw [tick_dive]
  rcases top.tick w with ⟨_ | b | _ | _, d, v⟩
  · nofun
  · exact descent_not_done
  · nofun
  · nofun

end Stages

theorem Firm.closes {c : Cursor W α} (hc : c.Firm) : c.Closes := by
  obtain ⟨hb, hr⟩ := hc
  induction c with
  | empty =>
    apply Closes.of_tick id
    intro w d w' h
    cases h
    trivial
  | slice xs i => exact closes_slice hb
  | source src ended s => exact closes_source hr ended s
  | fused ended c => exact closes_fused ended c
  | map f c ih => exact (ih hb hr).map f
  | filter p c ih => exact (ih hb hr).filter p
  | filterMap f c ih => exact (ih hb hr).filterMap f
  | first c later => exact closes_first c later
  | second c ih => exact (ih hb hr).second
  | tail n c ih => exact (ih hb hr).tail n
  | limit n c => exact closes_limit n c
  | distinct eq key seen c ih => exact (ih hb hr).distinct eq key seen
  | excludeFresh => exact .of_not_done id fun _ => opening_not_done nofun
  | excludeDrain eq key other d keys c => exact closes_excludeDrain eq key other d keys c
  | excludeReady eq key keys c ih => exact (ih hb hr).excludeReady eq key keys
  | flatten book outer ih => exact (ih hb hr).flatten book
  | flattenIn book inner outer => exact closes_flattenIn book inner outer
  | descend visit book c => exact closes_descend visit book c
  | dive visit book level top rest => exact closes_dive visit book level top rest

theorem ended_of_step {c d : Cursor W α} {fuel : Nat} {w w' : W} (hc : c.Firm)
    (h : c.step fuel w = some (.ok .done, d, w')) : d.Ended := by
  induction fuel generalizing c w with
  | zero => cases h
  | succ fuel ih =>
    rw [step] at h
    rcases ht : c.tick w with ⟨_ | a | _ | p, e, v⟩ <;> rw [ht] at h
    · exact ih ((becomes_of_tick ht).firm hc) h
    · cases h
    · cases h
      exact hc.closes.tick ht
    · cases h

theorem ended_of_advanceBy {c d : Cursor W α} {fuel n : Nat} {w w' : W} (hc : c.Firm)
    (h : c.advanceBy fuel n w = some (.ok false, d, w')) : d.Ended := by
  induction fuel generalizing c n w with
  | zero => cases h
  | succ fuel ih =>
    rw [advanceBy] at h
    rcases hs : c.skip n w with ⟨m | b | p, e, v⟩ <;> rw [hs] at h
    · exact ih ((becomes_of_skip hs).firm hc) h
    · cases h
      exact hc.closes.skip hs
    · cases h

end Cursor

end PullStream
