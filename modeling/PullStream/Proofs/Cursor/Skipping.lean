import PullStream.Proofs.Cursor.Transition
import PullStream.Proofs.Outcome

/-!
# Skipping agrees with stepping

Storage jumps over elements, a fused cursor hands a skip on to what is inside it, and the others
step. `Strides` are the cursors below which no source has a jump of its own; for them a skip leads
where moves lead, and `Plays.tail` says what that leaves of the outcomes. A panic that a skip meets
ends it.
-/

set_option autoImplicit false

namespace PullStream

variable {W α : Type}

/-- The outcomes behind the first `n` elements. A panic in front of them is not passed over. -/
def Outcome.behind : Nat → List (Outcome α) → List (Outcome α)
  | 0, os => os
  | _+1, [] => []
  | n+1, yield _ :: os => behind n os
  | _+1, panic p :: os => panic p :: os

@[simp] theorem Outcome.behind_zero (os : List (Outcome α)) : behind 0 os = os := by
  unfold behind
  rfl

@[simp] theorem Outcome.behind_nil (n : Nat) : behind n ([] : List (Outcome α)) = [] := by
  cases n <;> rfl

theorem Outcome.behind_append (as : List α) (n : Nat) (os : List (Outcome α)) :
    behind (as.length + n) (as.map yield ++ os) = behind n os := by
  induction as with
  | nil => simp
  | cons a as ih =>
    rw [List.length_cons, Nat.add_right_comm]
    exact ih

namespace Cursor

open Moves

/-- Leaving elements out reaches no jump of a source. -/
def Strides : {α : Type} → Cursor W α → Prop
  | _, .source src _ _ => src.jump = none
  | _, .fused _ c => c.Strides
  | _, .dive _ _ _ _ rest => rest.Strides
  | _, _ => True

theorem Becomes.strides {c d : Cursor W α} (h : c.Becomes d) (hc : c.Strides) : d.Strides := by
  induction h with
  | stay | source | surfaced => exact hc
  | fused h ih => exact ih hc
  | dive | enteredDeeper => exact hc
  | _ => trivial

/-- Moves that show `n` elements and no panic lead from the first cursor to the second. -/
inductive Passes : Cursor W α → Nat → W → Cursor W α → W → Prop
  | here {c : Cursor W α} {w : W} : Passes c 0 w c w
  | silent {n : Nat} {c d e : Cursor W α} {w v u : W} (h : c.tick w = (.silent, d, v))
      (hp : Passes d n v e u) : Passes c n w e u
  | yield {n : Nat} {a : α} {c d e : Cursor W α} {w v u : W} (h : c.tick w = (.yield a, d, v))
      (hp : Passes d n v e u) : Passes c (n + 1) w e u

/-- A move of leaving `n` elements out that leads where moves towards elements lead. -/
def Agrees (c : Cursor W α) (n : Nat) (w : W) : Skip × Cursor W α × W → Prop
  | (.ongoing m, d, v) =>
    c.tick w = (.silent, d, v) ∧ m = n ∨ ∃ a, c.tick w = (.yield a, d, v) ∧ n = m + 1
  | (.finished true, d, v) => c.Passes n w d v
  | (.finished false, _, _) => ∃ k e u, k < n ∧ c.Passes k w e u ∧ (e.tick u).1 = .done
  | (.panic p, d, v) => 0 < n ∧ c.tick w = (.panic p, d, v)

theorem agrees_of_steps (c : Cursor W α) (n : Nat) (w : W) :
    c.Agrees n w (skipBySteps c c.tick n w) := by
  cases n with
  | zero => exact .here
  | succ n =>
    rcases h : c.tick w with ⟨_ | a | _ | p, d, v⟩ <;> simp only [skipBySteps, h]
    · exact .inl ⟨h, rfl⟩
    · by_cases hn : n = 0
      · subst hn
        exact .yield h .here
      · simp only [hn, if_false]
        exact .inr ⟨a, h, rfl⟩
    · exact ⟨0, c, w, Nat.succ_pos n, .here, by rw [h]⟩
    · exact ⟨Nat.succ_pos n, h⟩

theorem passes_slice (xs : Array α) (n i : Nat) (w : W) (h : n ≤ xs.size - i) :
    (slice xs i).Passes n w (slice xs (i + n)) w := by
  induction n generalizing i with
  | zero => exact .here
  | succ n ih =>
    have hn := ih (i + 1) (by omega)
    rw [Nat.add_right_comm, Nat.add_assoc] at hn
    have hi : xs[i]? = some xs[i] := Array.getElem?_eq_getElem (by omega)
    apply Passes.yield (a := xs[i]) _ hn
    rw [tick_slice, hi]

theorem passes_fused {c d : Cursor W α} {n : Nat} {w v : W} (h : c.Passes n w d v) :
    (fused false c).Passes n w (fused false d) v := by
  induction h with
  | here => exact .here
  | silent ht _ ih => exact .silent (by simp [tick_fused, ht]) ih
  | @yield _ a _ _ _ _ _ _ ht _ ih => exact .yield (a := a) (by simp [tick_fused, ht]) ih

theorem Strides.agrees {c : Cursor W α} (h : c.Strides) (n : Nat) (w : W) :
    c.Agrees n w (c.skip n w) := by
  induction c generalizing n w with
  | slice xs i =>
    rw [skip_slice]
    by_cases hn : n ≤ xs.size - i
    · rw [if_pos hn]
      exact passes_slice xs n i w hn
    · rw [if_neg hn]
      refine ⟨xs.size - i, _, w, by omega, passes_slice xs _ i w (Nat.le_refl _), ?_⟩
      rw [tick_slice, Array.getElem?_eq_none (by omega)]
  | source src ended s =>
    have hs : src.jump = none := h
    rw [skip_source, hs]
    exact agrees_of_steps (.source src ended s) n w
  | fused ended c ih =>
    rw [skip_fused]
    cases ended with
    | true =>
      by_cases hz : n = 0
      · subst hz
        exact .here
      · simp only [if_true, beq_eq_false_iff_ne.mpr hz]
        exact ⟨0, _, w, by omega, .here, rfl⟩
    | false =>
      have hc := ih h n w
      rcases hk : c.skip n w with ⟨m | (_ | _) | p, d, v⟩ <;> rw [hk] at hc
      · rcases hc with ⟨ht, rfl⟩ | ⟨a, ht, rfl⟩
        · exact .inl ⟨by simp [tick_fused, ht], rfl⟩
        · exact .inr ⟨a, by simp [tick_fused, ht], rfl⟩
      · obtain ⟨k, e, u, hkn, hp, hd⟩ := hc
        refine ⟨k, _, u, hkn, passes_fused hp, ?_⟩
        rcases he : e.tick u with ⟨_ | _ | _ | _, _, _⟩ <;> rw [he] at hd <;> try cases hd
        simp [tick_fused, he]
      · exact passes_fused hc
      · exact ⟨hc.1, by simp [tick_fused, hc.2]⟩
  | _ =>
    rw [skip_eq_skipBySteps id]
    exact agrees_of_steps _ n w

theorem Plays.passes {c d : Cursor W α} {os : List (Outcome α)} {n : Nat} {w v : W}
    (h : c.Plays os) (hp : c.Passes n w d v) :
    ∃ (as : List α) (rest : List (Outcome α)), as.length = n ∧ os = as.map .yield ++ rest ∧
      d.Plays rest := by
  induction hp generalizing os with
  | here => exact ⟨[], os, rfl, rfl, h⟩
  | @silent n c d e w v u ht hp ih =>
    have hw := h.met w
    rw [ht] at hw
    exact ih hw
  | @yield n a c d e w v u ht hp ih =>
    have hw := h.met w
    rw [ht] at hw
    obtain ⟨rest, rfl, hd⟩ := hw
    obtain ⟨as, os', rfl, rfl, he⟩ := ih hd
    exact ⟨a :: as, os', rfl, rfl, he⟩

theorem Plays.tail_zero {c : Cursor W α} {os : List (Outcome α)} (h : c.Plays os) :
    (tail 0 c).Plays os :=
  h.handed_on tick_tail_zero

/-- A skip that is pending passes over elements, and what it does not pass over is played. -/
theorem Plays.tail {c : Cursor W α} {os : List (Outcome α)} (h : c.Plays os) (hs : c.Strides)
    (n : Nat) : (tail n c).Plays (Outcome.behind n os) := by
  induction h using Plays.rec_met generalizing n with
  | step c os h ih =>
    cases n with
    | zero =>
      rw [Outcome.behind_zero]
      exact h.tail_zero
    | succ n =>
      apply Plays.of_met
      intro w
      have hw := ih w
      have ha := hs.agrees (n + 1) w
      have hc : c.Becomes (c.tick w).2.1 := c.tracked.tick w
      rw [tick_tail_succ]
      rcases hk : c.skip (n + 1) w with ⟨m | (_ | _) | p, d, v⟩ <;> rw [hk] at ha
      · rcases ha with ⟨ht, rfl⟩ | ⟨a, ht, hm⟩ <;> rw [ht] at hw hc
        · obtain ⟨-, hd⟩ := hw
          exact hd (hc.strides hs) (n + 1)
        · obtain ⟨rest, rfl, -, hd⟩ := hw
          obtain rfl : n = m := Nat.succ.inj hm
          exact hd (hc.strides hs) n
      · obtain ⟨k, e, u, hkn, hp, hd⟩ := ha
        obtain ⟨as, rest, rfl, rfl, he⟩ := h.passes hp
        have hu := he.met u
        rcases hte : e.tick u with ⟨_ | _ | _ | _, _, _⟩ <;> rw [hte] at hd hu <;> try cases hd
        obtain ⟨j, hj⟩ := Nat.exists_eq_add_of_lt hkn
        rw [hj, hu, Nat.add_assoc, Outcome.behind_append]
        rfl
      · obtain ⟨as, rest, hn, rfl, he⟩ := h.passes ha
        rw [← hn, ← Nat.add_zero as.length, Outcome.behind_append, Outcome.behind_zero]
        exact he.tail_zero
      · rw [ha.2] at hw
        obtain ⟨rest, rfl, hd, -⟩ := hw
        exact ⟨rest, rfl, hd.tail_zero⟩

end Cursor

end PullStream
