import PullStream.Proofs.Settling

/-!
# Outcomes of a session

What the holder of a cursor sees who steps it to its end and catches every panic: the elements and
the panics, in order. `Cursor.Plays` says that a cursor has a given list of outcomes whatever is
done to the world between its moves; it is the specification that combinators are proved against,
and `Plays.outcomes` leads from it to the run.
-/

set_option autoImplicit false

namespace PullStream

variable {W α : Type}

inductive Outcome (α : Type) where
  | yield (a : α)
  | panic (p : Panic)
deriving DecidableEq, Repr

namespace Outcome

/-- How a step comes back that has this outcome. -/
def answer : Outcome α → Except Panic (Step α)
  | yield a => .ok (.yield a)
  | panic p => .error p

/-- The outcomes with others in the place of each element. -/
def spread {β : Type} (f : β → List (Outcome α)) (os : List (Outcome β)) : List (Outcome α) :=
  os.flatMap fun
    | yield b => f b
    | panic p => [panic p]

theorem spread_yield {β : Type} (f : β → List (Outcome α)) (b : β) (os : List (Outcome β)) :
    spread f (yield b :: os) = f b ++ spread f os := rfl

theorem spread_panic {β : Type} (f : β → List (Outcome α)) (p : Panic) (os : List (Outcome β)) :
    spread f (panic p :: os) = panic p :: spread f os := rfl

theorem spread_same (os : List (Outcome α)) : spread (fun a => [yield a]) os = os := by
  induction os with
  | nil => rfl
  | cons o os ih => cases o <;> simp only [spread_yield, spread_panic, ih, List.singleton_append]

end Outcome

namespace Cursor

/-- Steps a cursor until it reports its end, and goes on after every panic. -/
def outcomes : Nat → Cursor W α → W → Option (List (Outcome α) × Cursor W α × W)
  | 0, _, _ => none
  | fuel+1, c, w =>
    match c.step fuel w with
    | none => none
    | some (.ok (.yield a), c, w) => (outcomes fuel c w).map fun (os, r) => (.yield a :: os, r)
    | some (.ok .done, c, w) => some ([], c, w)
    | some (.error p, c, w) => (outcomes fuel c w).map fun (os, r) => (.panic p :: os, r)

/-- A move that fits a list of outcomes and leaves behind it a cursor for the outcomes to come. -/
def Met (P : Cursor W α → List (Outcome α) → Prop) (os : List (Outcome α)) :
    Move α × Cursor W α × W → Prop
  | (.silent, c, _) => P c os
  | (.yield a, c, _) => ∃ rest, os = .yield a :: rest ∧ P c rest
  | (.done, _, _) => os = []
  | (.panic p, c, _) => ∃ rest, os = .panic p :: rest ∧ P c rest

/-- What is left of the outcomes after a move that fits them. -/
inductive Leaves : List (Outcome α) → Move α → List (Outcome α) → Prop
  | silent (os : List (Outcome α)) : Leaves os .silent os
  | yield (a : α) (os : List (Outcome α)) : Leaves (.yield a :: os) (.yield a) os
  | panic (p : Panic) (os : List (Outcome α)) : Leaves (.panic p :: os) (.panic p) os

/-- In whatever worlds its moves are made, the cursor has these outcomes and no others, and it comes
to each of them after finitely many silent moves. -/
inductive Plays : Cursor W α → List (Outcome α) → Prop
  | intro {c : Cursor W α} {os : List (Outcome α)}
      (fits : ∀ w, (∃ os', Leaves os (c.tick w).1 os') ∨ (c.tick w).1 = .done ∧ os = [])
      (goes : ∀ w os', Leaves os (c.tick w).1 os' → Plays (c.tick w).2.1 os') : Plays c os

theorem Plays.of_met {c : Cursor W α} {os : List (Outcome α)}
    (h : ∀ w, Met Plays os (c.tick w)) : c.Plays os := by
  constructor
  · intro w
    have hw := h w
    generalize c.tick w = r at hw ⊢
    rcases r with ⟨_ | a | _ | p, d, v⟩
    · exact .inl ⟨os, .silent os⟩
    · obtain ⟨rest, rfl, -⟩ := hw
      exact .inl ⟨rest, .yield a rest⟩
    · exact .inr ⟨rfl, hw⟩
    · obtain ⟨rest, rfl, -⟩ := hw
      exact .inl ⟨rest, .panic p rest⟩
  · intro w os' hl
    have hw := h w
    generalize c.tick w = r at hw hl ⊢
    rcases r with ⟨_ | a | _ | p, d, v⟩
    · cases hl
      exact hw
    · obtain ⟨rest, rfl, hd⟩ := hw
      cases hl
      exact hd
    · cases hl
    · obtain ⟨rest, rfl, hd⟩ := hw
      cases hl
      exact hd

/-- Induction over the moves that a cursor makes while it plays its outcomes. -/
@[elab_as_elim]
theorem Plays.rec_met {motive : (c : Cursor W α) → (os : List (Outcome α)) → c.Plays os → Prop}
    (step : ∀ (c : Cursor W α) (os : List (Outcome α)) (h : c.Plays os),
      (∀ w, Met (fun d rest => ∃ hd : d.Plays rest, motive d rest hd) os (c.tick w)) →
        motive c os h)
    {c : Cursor W α} {os : List (Outcome α)} (h : c.Plays os) : motive c os h := by
  induction h with
  | @intro c os fits goes ih =>
    apply step
    intro w
    have hf := fits w
    have hg : ∀ os', Leaves os (c.tick w).1 os' →
        ∃ hd : (c.tick w).2.1.Plays os', motive (c.tick w).2.1 os' hd :=
      fun os' hl => ⟨goes w os' hl, ih w os' hl⟩
    clear fits goes ih
    generalize c.tick w = r at hf hg ⊢
    rcases r with ⟨_ | a | _ | p, d, v⟩
    · exact hg os (.silent os)
    · rcases hf with ⟨rest, hl⟩ | ⟨hd, -⟩
      · cases hl
        exact ⟨rest, rfl, hg rest (.yield a rest)⟩
      · cases hd
    · rcases hf with ⟨rest, hl⟩ | ⟨-, rfl⟩
      · cases hl
      · rfl
    · rcases hf with ⟨rest, hl⟩ | ⟨hd, -⟩
      · cases hl
        exact ⟨rest, rfl, hg rest (.panic p rest)⟩
      · cases hd

theorem Met.mono {P Q : Cursor W α → List (Outcome α) → Prop} {os : List (Outcome α)}
    {r : Move α × Cursor W α × W} (hpq : ∀ d rest, P d rest → Q d rest) (h : Met P os r) :
    Met Q os r := by
  rcases r with ⟨_ | a | _ | p, d, v⟩
  · exact hpq d os h
  · obtain ⟨rest, rfl, hd⟩ := h
    exact ⟨rest, rfl, hpq d rest hd⟩
  · exact h
  · obtain ⟨rest, rfl, hd⟩ := h
    exact ⟨rest, rfl, hpq d rest hd⟩

theorem Plays.met {c : Cursor W α} {os : List (Outcome α)} (h : c.Plays os) (w : W) :
    Met Plays os (c.tick w) := by
  induction h using Plays.rec_met with
  | step c os h ih => exact (ih w).mono fun d rest hd => hd.1

theorem Plays.settles_done {c : Cursor W α} (h : c.Plays []) (w : W) :
    ∃ d v, Settles (c.step · w) (.ok .done, d, v) := by
  generalize hos : [] = os at h
  induction h using Plays.rec_met generalizing w with
  | step c os h ih =>
    subst hos
    have hw := ih w
    rcases ht : c.tick w with ⟨_ | a | _ | p, d, v⟩ <;> rw [ht] at hw
    · obtain ⟨-, hd⟩ := hw
      obtain ⟨e, u, hs⟩ := hd v rfl
      exact ⟨e, u, settles_step_silent ht hs⟩
    · obtain ⟨rest, hos, -⟩ := hw
      cases hos
    · exact ⟨d, v, settles_step_done ht⟩
    · obtain ⟨rest, hos, -⟩ := hw
      cases hos

/-- Stepping a cursor that plays outcomes comes back with the first of them. -/
theorem Plays.settles_step {c : Cursor W α} {o : Outcome α} {rest : List (Outcome α)}
    (h : c.Plays (o :: rest)) (w : W) :
    ∃ d v, Settles (c.step · w) (o.answer, d, v) ∧ d.Plays rest := by
  generalize hos : o :: rest = os at h
  induction h using Plays.rec_met generalizing w with
  | step c os h ih =>
    subst hos
    have hw := ih w
    rcases ht : c.tick w with ⟨_ | a | _ | p, d, v⟩ <;> rw [ht] at hw
    · obtain ⟨-, hd⟩ := hw
      obtain ⟨e, u, hs, he⟩ := hd v rfl
      exact ⟨e, u, settles_step_silent ht hs, he⟩
    · obtain ⟨_, hos, hd, -⟩ := hw
      cases hos
      exact ⟨d, v, settles_step_yield ht, hd⟩
    · cases hw
    · obtain ⟨_, hos, hd, -⟩ := hw
      cases hos
      exact ⟨d, v, settles_step_panic ht, hd⟩

theorem outcomes_succ_of_step {c d : Cursor W α} {o : Outcome α} {fuel : Nat} {w v : W}
    (h : c.step fuel w = some (o.answer, d, v)) :
    c.outcomes (fuel + 1) w = (d.outcomes fuel v).map fun (os, r) => (o :: os, r) := by
  cases o <;> simp only [outcomes, h, Outcome.answer]

theorem Plays.outcomes {c : Cursor W α} {os : List (Outcome α)} (h : c.Plays os) (w : W) :
    ∃ d v, Settles (c.outcomes · w) (os, d, v) := by
  induction os generalizing c w with
  | nil =>
    obtain ⟨d, v, hs⟩ := h.settles_done w
    have hd : Settles (fun _ => some (([] : List (Outcome α)), d, v)) ([], d, v) :=
      settles_of_first fun _ => rfl
    exact ⟨d, v, settles_of_part hs (fun fuel hf => by rw [Cursor.outcomes, hf]) hd⟩
  | cons o os ih =>
    obtain ⟨d, v, hs, hd⟩ := h.settles_step w
    obtain ⟨e, u, ho⟩ := ih hd v
    have hm := ho.map fun (os, r) => (o :: os, r)
    exact ⟨e, u, settles_of_part hs (fun fuel hf => outcomes_succ_of_step hf) hm⟩

section Wrapping

variable {β : Type} {around : Cursor W β → Cursor W α} {out : List (Outcome α)}

/-- Of a cursor around another one that is silent when the inner one is, only the moves that show
something have to be looked at. -/
theorem Plays.wrap {os : List (Outcome β)} {c : Cursor W β} (h : c.Plays os)
    (hs : ∀ c w d v, c.tick w = (.silent, d, v) → (around c).tick w = (.silent, around d, v))
    (hm : ∀ c w m d v, c.tick w = (m, d, v) → m ≠ .silent → Met Plays os (m, d, v) →
      Met Plays out ((around c).tick w)) : (around c).Plays out := by
  induction h using Plays.rec_met with
  | step c os h ih =>
    apply Plays.of_met
    intro w
    have hw := ih w
    have hp := h.met w
    rcases ht : c.tick w with ⟨m, d, v⟩
    rw [ht] at hw hp
    cases m with
    | silent =>
      obtain ⟨-, hd⟩ := hw
      rw [hs c w d v ht]
      exact hd hm
    | _ => exact hm c w _ d v ht nofun hp

theorem Plays.wrap_nil {c : Cursor W β} (h : c.Plays [])
    (hs : ∀ c w d v, c.tick w = (.silent, d, v) → (around c).tick w = (.silent, around d, v))
    (hd : ∀ c w d v, c.tick w = (.done, d, v) → Met Plays out ((around c).tick w)) :
    (around c).Plays out := by
  apply h.wrap hs
  rintro c w (_ | b | _ | p) d v ht hm hp
  · contradiction
  · obtain ⟨rest, hos, -⟩ := hp
    cases hos
  · exact hd c w d v ht
  · obtain ⟨rest, hos, -⟩ := hp
    cases hos

theorem Plays.wrap_yield {b : β} {os : List (Outcome β)} {c : Cursor W β}
    (h : c.Plays (.yield b :: os))
    (hs : ∀ c w d v, c.tick w = (.silent, d, v) → (around c).tick w = (.silent, around d, v))
    (hy : ∀ c w d v, c.tick w = (.yield b, d, v) → d.Plays os →
      Met Plays out ((around c).tick w)) : (around c).Plays out := by
  apply h.wrap hs
  rintro c w (_ | a | _ | p) d v ht hm hp
  · contradiction
  · obtain ⟨rest, hos, hd⟩ := hp
    cases hos
    exact hy c w d v ht hd
  · cases hp
  · obtain ⟨rest, hos, -⟩ := hp
    cases hos

theorem Plays.wrap_panic {p : Panic} {os : List (Outcome β)} {c : Cursor W β}
    (h : c.Plays (.panic p :: os))
    (hs : ∀ c w d v, c.tick w = (.silent, d, v) → (around c).tick w = (.silent, around d, v))
    (hq : ∀ c w d v, c.tick w = (.panic p, d, v) → d.Plays os →
      Met Plays out ((around c).tick w)) : (around c).Plays out := by
  apply h.wrap hs
  rintro c w (_ | a | _ | q) d v ht hm hp
  · contradiction
  · obtain ⟨rest, hos, -⟩ := hp
    cases hos
  · cases hp
  · obtain ⟨rest, hos, hd⟩ := hp
    cases hos
    exact hq c w d v ht hd

/-- A cursor that hands on all moves but elements puts other outcomes in the place of these. -/
theorem Plays.relay {os : List (Outcome β)} {c : Cursor W β} {f : β → List (Outcome α)}
    {onYield : β → Cursor W β → W → Move α × Cursor W α × W} (h : c.Plays os)
    (ht : ∀ c w, (around c).tick w = Moves.relay around onYield (c.tick w))
    (hy : ∀ b d v rest, (around d).Plays rest → Met Plays (f b ++ rest) (onYield b d v)) :
    (around c).Plays (Outcome.spread f os) := by
  have hs : ∀ c w d v, c.tick w = (.silent, d, v) →
      (around c).tick w = (.silent, around d, v) := by
    intro c w d v h
    rw [ht, h]
    rfl
  induction os generalizing c with
  | nil =>
    apply h.wrap_nil hs
    intro c w d v h
    rw [ht, h]
    rfl
  | cons o os ih =>
    cases o with
    | yield b =>
      apply h.wrap_yield hs
      intro c w d v h hd
      rw [ht, h]
      exact hy b d v _ (ih hd)
    | panic p =>
      apply h.wrap_panic hs
      intro c w d v h hd
      rw [ht, h]
      exact ⟨_, rfl, ih hd⟩

/-- A cursor that hands on every move as it is has the outcomes of the inner one. -/
theorem Plays.handed_on {os : List (Outcome α)} {around : Cursor W α → Cursor W α}
    {c : Cursor W α} (h : c.Plays os)
    (ht : ∀ c w, (around c).tick w =
      Moves.relay around (fun a c w => (.yield a, around c, w)) (c.tick w)) :
    (around c).Plays os := by
  have hr := h.relay ht (f := fun a => [.yield a]) fun b d v rest hd => ⟨rest, rfl, hd⟩
  rwa [Outcome.spread_same] at hr

end Wrapping

end Cursor

/-- Opening the stream does not panic, and its cursors play the outcomes. -/
def Stream.Plays (s : Stream W α) (os : List (Outcome α)) : Prop :=
  ∀ w, ∃ c v, s.cursor w = (.ok c, v) ∧ c.Plays os

end PullStream
