import PullStream.Proofs.Cursor.Surrounding

/-!
# Steps across the end of an input

A cursor with another stream behind it steps its input, and when that has ended it opens the stream
and steps on, all in one step. An opening that panics leaves neither the input nor the stream.
-/

set_option autoImplicit false

namespace PullStream.Cursor

open Moves

variable {W α : Type} {c d e : Cursor W α} {later : Stream W α} {w v : W}
  {x : Except Panic (Step α)} {z : Except Panic (Step α) × Cursor W α × W}

theorem second_surrounds : Surrounds second
    (relay second fun (a : α) c (w : W) => (.yield a, second c, w)) :=
  ⟨fun _ _ => rfl, fun _ _ => rfl⟩

theorem settles_step_second (h : Settles (c.step · w) (x, d, v)) :
    Settles ((second c).step · w) (x, second d, v) := by
  refine second_surrounds.settles h fun e u he => ?_
  rcases x with p | a | _
  · exact settles_step_panic he
  · exact settles_step_yield he
  · exact settles_step_done he

theorem settles_step_second_iff :
    Settles ((second c).step · w) (x, e, v) ↔
      ∃ d, Settles (c.step · w) (x, d, v) ∧ e = second d := by
  constructor
  · intro h
    obtain ⟨fuel, hf⟩ := h.comes
    obtain ⟨y, d, u, hc, -⟩ := second_surrounds.of_step hf
    cases h.unique (settles_step_second hc)
    exact ⟨d, hc, rfl⟩
  · rintro ⟨d, h, rfl⟩
    exact settles_step_second h

/-- What the cursor in front of `later` makes of a move of its input. -/
def handing (later : Stream W α) : Move α × Cursor W α × W → Move α × Cursor W α × W
  | (.silent, c, w) => (.silent, .first c later, w)
  | (.yield a, c, w) => (.yield a, .first c later, w)
  | (.done, _, w) => opening later .second .empty .silent w
  | (.panic p, c, w) => (.panic p, .first c later, w)

theorem first_surrounds (later : Stream W α) : Surrounds (first · later) (handing later) where
  tick c w := by
    rw [tick_first]
    rcases c.tick w with ⟨_ | _ | _ | _, d, v⟩ <;> rfl
  silent _ _ := rfl

/-- What a step comes to when the step of the input came to this and left `d`. -/
def HandsOver (later : Stream W α) (d : Cursor W α) (v : W)
    (z : Except Panic (Step α) × Cursor W α × W) : Except Panic (Step α) → Prop
  | .ok (.yield a) => z = (.ok (.yield a), first d later, v)
  | .ok .done => (∃ p u, later.cursor v = (.error p, u) ∧ z = (.error p, .empty, u)) ∨
      ∃ e u, later.cursor v = (.ok e, u) ∧ Settles ((second e).step · u) z
  | .error p => z = (.error p, first d later, v)

theorem settles_handing {u : W} (h : HandsOver later d v z x)
    (ht : e.tick u = handing later (.ofStep x, d, v)) : Settles (e.step · u) z := by
  rcases x with p | a | _
  · obtain rfl : z = _ := h
    exact settles_step_panic ht
  · obtain rfl : z = _ := h
    exact settles_step_yield ht
  · replace ht : e.tick u = opening later .second .empty .silent v := ht
    rw [opening] at ht
    rcases h with ⟨p, t, ho, rfl⟩ | ⟨f, t, ho, hs⟩ <;> rw [ho] at ht
    · exact settles_step_panic ht
    · exact settles_step_silent ht hs

theorem handsOver_of_step {u : W} {less : Nat}
    (ht : e.tick u = handing later (.ofStep x, d, v)) (hs : e.step (less + 1) u = some z) :
    HandsOver later d v z x := by
  rw [step, ht] at hs
  rcases x with p | a | _
  · cases hs
    rfl
  · cases hs
    rfl
  · rcases ho : later.cursor v with ⟨p | f, t⟩ <;>
      simp only [Move.ofStep, handing, opening, ho] at hs
    · cases hs
      exact .inl ⟨p, _, ho, rfl⟩
    · exact .inr ⟨f, t, ho, settles_of_step hs⟩

theorem settles_step_first_iff :
    Settles ((first c later).step · w) z ↔
      ∃ x d v, Settles (c.step · w) (x, d, v) ∧ HandsOver later d v z x := by
  constructor
  · intro h
    obtain ⟨fuel, hf⟩ := h.comes
    obtain ⟨x, d, v, hc, e, u, less, -, ht, hs⟩ := (first_surrounds later).of_step hf
    exact ⟨x, d, v, hc, handsOver_of_step ht hs⟩
  · rintro ⟨x, d, v, hc, h⟩
    exact (first_surrounds later).settles hc fun e u => settles_handing h

end PullStream.Cursor
