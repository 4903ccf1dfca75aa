import PullStream.Proofs.Cursor.Transition
import PullStream.Proofs.Settling

/-!
# Leaving elements out one by one

A cursor without a shortcut leaves elements out by stepping over them. So does every cursor that it
turns into, if a property of cursors is known that moves keep and that rules shortcuts out; then
`advanceBy` begins with what `step` does.
-/

set_option autoImplicit false

namespace PullStream.Cursor

open Moves

variable {W α : Type} {P : Cursor W α → Prop}

theorem step_keeps (ht : ∀ c w, P c → P (c.tick w).2.1) {c d : Cursor W α} {fuel : Nat}
    {r : Except Panic (Step α)} {w v : W} (h : c.step fuel w = some (r, d, v)) (hc : P c) : P d := by
  induction fuel generalizing c w with
  | zero => cases h
  | succ fuel ih =>
    have hd := ht c w hc
    rw [step] at h
    rcases hm : c.tick w with ⟨_ | a | _ | p, e, u⟩ <;> rw [hm] at h hd
    · exact ih h hd
    all_goals
      cases h
      exact hd

theorem advanceBy_keeps (ht : ∀ c w, P c → P (c.tick w).2.1) (hj : ∀ c, P c → ¬ c.Jumps)
    {c d : Cursor W α} {fuel n : Nat} {r : Except Panic Bool} {w v : W}
    (h : c.advanceBy fuel n w = some (r, d, v)) (hc : P c) : P d := by
  induction fuel generalizing c n w with
  | zero => cases h
  | succ fuel ih =>
    have hd : P (c.skip n w).2.1 := by
      rw [skip_eq_skipBySteps (hj c hc)]
      rcases skipBySteps_state c c.tick n w with hs | hs <;> rw [hs]
      · exact hc
      · exact ht c w hc
    rw [advanceBy] at h
    rcases hs : c.skip n w with ⟨m | b | p, e, u⟩ <;> rw [hs] at h hd
    · exact ih h hd
    all_goals
      cases h
      exact hd

theorem settles_advanceBy_zero {c : Cursor W α} (hj : ¬ c.Jumps) (w : W) :
    Settles (c.advanceBy · 0 w) (.ok true, c, w) :=
  settles_of_first fun fuel => by
    simp only [advanceBy, skip_eq_skipBySteps hj, skipBySteps]

/-- The first element that is left out is the one that a step yields. -/
theorem settles_advanceBy_succ (ht : ∀ c w, P c → P (c.tick w).2.1) (hj : ∀ c, P c → ¬ c.Jumps)
    {c d : Cursor W α} {fuel n : Nat} {a : α} {w v : W} {r : Except Panic Bool × Cursor W α × W}
    (hc : P c) (hs : c.step fuel w = some (.ok (.yield a), d, v))
    (hr : Settles (d.advanceBy · n v) r) : Settles (c.advanceBy · (n + 1) w) r := by
  induction fuel generalizing c w with
  | zero => cases hs
  | succ fuel ih =>
    have hd := ht c w hc
    have hk : c.skip (n + 1) w = skipBySteps c c.tick (n + 1) w := by
      rw [skip_eq_skipBySteps (hj c hc)]
    rw [step] at hs
    rcases hm : c.tick w with ⟨_ | b | _ | p, e, u⟩ <;> rw [hm] at hs hd
    · rw [skipBySteps, hm] at hk
      exact settles_of_next (fun fuel => by rw [advanceBy, hk]) (ih hd hs)
    · cases hs
      rw [skipBySteps, hm] at hk
      by_cases hn : n = 0
      · subst hn
        rw [hr.unique (settles_advanceBy_zero (hj d hd) v)]
        exact settles_of_first fun fuel => by rw [advanceBy, hk]; rfl
      · simp only [hn, if_false] at hk
        exact settles_of_next (fun fuel => by rw [advanceBy, hk]) hr
    · cases hs
    · cases hs

theorem settles_advanceBy_done (ht : ∀ c w, P c → P (c.tick w).2.1) (hj : ∀ c, P c → ¬ c.Jumps)
    {c d : Cursor W α} {fuel : Nat} {w v : W} (hc : P c)
    (hs : c.step fuel w = some (.ok .done, d, v)) (n : Nat) :
    Settles (c.advanceBy · (n + 1) w) (.ok false, d, v) := by
  induction fuel generalizing c w with
  | zero => cases hs
  | succ fuel ih =>
    have hd := ht c w hc
    have hk : c.skip (n + 1) w = skipBySteps c c.tick (n + 1) w := by
      rw [skip_eq_skipBySteps (hj c hc)]
    rw [step] at hs
    rcases hm : c.tick w with ⟨_ | b | _ | p, e, u⟩ <;> rw [hm] at hs hd
    · rw [skipBySteps, hm] at hk
      exact settles_of_next (fun fuel => by rw [advanceBy, hk]) (ih hd hs)
    · cases hs
    · cases hs
      rw [skipBySteps, hm] at hk
      exact settles_of_first fun fuel => by rw [advanceBy, hk]
    · cases hs

variable {c d : Cursor W α} {m n : Nat} {w v : W}

theorem settles_nth_true {e : Cursor W α} {u : W} {r : Except Panic (Step α)}
    (ha : Settles (c.advanceBy · n w) (.ok true, d, v)) (hs : Settles (d.step · v) (r, e, u)) :
    Settles (c.nth · n w) (r.map Step.toOption, e, u) :=
  settles_of_both ha hs fun fuel hf hg => by simp only [nth, next, hf, hg, Option.map_some]

theorem settles_nth_false (ha : Settles (c.advanceBy · n w) (.ok false, d, v)) :
    Settles (c.nth · n w) (.ok none, d, v) :=
  settles_of_both ha ha fun fuel hf _ => by simp only [nth, hf]

/-- Where leaving elements out leads from two cursors to the same place, so does `nth`. -/
theorem settles_nth_congr {a : Except Panic Bool × Cursor W α × W}
    {r : Except Panic (Option α) × Cursor W α × W} (hc : Settles (c.advanceBy · m w) a)
    (hd : Settles (d.advanceBy · n v) a) (hr : Settles (d.nth · n v) r) :
    Settles (c.nth · m w) r := by
  obtain ⟨i, hi⟩ := hc
  obtain ⟨j, hj⟩ := hd
  obtain ⟨l, hl⟩ := hr
  refine ⟨max i (max j l), fun fuel hf => ?_⟩
  rw [← hl fuel (by omega)]
  simp only [nth, hi fuel (by omega), hj fuel (by omega)]

end PullStream.Cursor
