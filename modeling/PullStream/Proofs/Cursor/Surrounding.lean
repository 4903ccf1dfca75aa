import PullStream.Proofs.Cursor.Moves
import PullStream.Proofs.Settling

/-!
# Steps of a stage

A stage makes each move from a move of the cursor inside it. So a step of the stage begins with a
whole step of that cursor, and goes on from what the stage makes of the move that it ended with.
-/

set_option autoImplicit false

namespace PullStream

variable {W α β : Type}

/-- The move that a step ends with. -/
def Move.ofStep : Except Panic (Step α) → Move α
  | .ok (.yield a) => .yield a
  | .ok .done => .done
  | .error p => .panic p

namespace Cursor

/-- The stage makes its moves from the moves of the cursor inside it, and hands the silent ones
on. -/
structure Surrounds (around : Cursor W β → Cursor W α)
    (react : Move β × Cursor W β × W → Move α × Cursor W α × W) : Prop where
  tick : ∀ c w, (around c).tick w = react (c.tick w)
  silent : ∀ c w, react (.silent, c, w) = (.silent, around c, w)

namespace Surrounds

variable {around : Cursor W β → Cursor W α}
  {react : Move β × Cursor W β × W → Move α × Cursor W α × W} {c d : Cursor W β} {w v : W}
  {x : Except Panic (Step β)} {r : Except Panic (Step α) × Cursor W α × W}

/-- The cursor inside steps, and the stage goes on from the last move of that step. -/
theorem settles (hs : Surrounds around react) (hc : Settles (c.step · w) (x, d, v))
    (hr : ∀ (e : Cursor W α) (u : W), e.tick u = react (.ofStep x, d, v) →
      Settles (e.step · u) r) : Settles ((around c).step · w) r := by
  obtain ⟨fuel, h⟩ := hc.comes
  clear hc
  induction fuel generalizing c w with
  | zero => cases h
  | succ fuel ih =>
    rw [step] at h
    have ht := hs.tick c w
    rcases hm : c.tick w with ⟨_ | b | _ | p, e, u⟩ <;> rw [hm] at h ht
    · exact settles_step_silent (ht.trans (hs.silent e u)) (ih h)
    all_goals
      cases h
      exact hr _ _ ht

/-- A step of the stage that came back has made a whole step of the cursor inside. -/
theorem of_step (hs : Surrounds around react) {fuel : Nat} (h : (around c).step fuel w = some r) :
    ∃ x d v, Settles (c.step · w) (x, d, v) ∧
      ∃ (e : Cursor W α) (u : W) (less : Nat), less < fuel ∧
        e.tick u = react (.ofStep x, d, v) ∧ e.step (less + 1) u = some r := by
  induction fuel generalizing c w with
  | zero => cases h
  | succ fuel ih =>
    have ht := hs.tick c w
    have hl := Nat.lt_succ_self fuel
    rcases hm : c.tick w with ⟨_ | b | _ | p, d, v⟩ <;> rw [hm] at ht
    · rw [step, ht, hs.silent] at h
      obtain ⟨x, d, v, hc, e, u, less, hl, hr⟩ := ih h
      exact ⟨x, d, v, settles_step_silent hm hc, e, u, less, Nat.lt_succ_of_lt hl, hr⟩
    · exact ⟨_, d, v, settles_step_yield hm, around c, w, fuel, hl, ht, h⟩
    · exact ⟨_, d, v, settles_step_done hm, around c, w, fuel, hl, ht, h⟩
    · exact ⟨_, d, v, settles_step_panic hm, around c, w, fuel, hl, ht, h⟩

end Surrounds

end Cursor

end PullStream
