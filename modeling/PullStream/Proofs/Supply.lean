import PullStream.Proofs.Cursor.Moves
import PullStream.Proofs.Outcome
import PullStream.Stream.Combinators

/-!
# Outcomes of storage and sources

Storage yields what it holds. A source follows a script of outcomes when its pulls answer by it in
every world; a session over it then has these outcomes, and a pull that panics is one of them.
-/

set_option autoImplicit false

namespace PullStream

variable {W σ α : Type}

/-- From this state on, the source answers by the script and then reports the end. -/
def Source.Follows (src : Source W σ α) : σ → List (Outcome α) → Prop
  | s, [] => ∀ w, ∃ s' v, src.pull s w = (.ok .done, s', v)
  | s, o :: os => ∀ w, ∃ s' v, src.pull s w = (o.answer, s', v) ∧ src.Follows s' os

theorem Source.Follows.plays {src : Source W σ α} {s : σ} {os : List (Outcome α)}
    (h : src.Follows s os) : (Cursor.source src false s).Plays os := by
  induction os generalizing s with
  | nil =>
    apply Cursor.Plays.of_met
    intro w
    obtain ⟨s', v, hp⟩ := h w
    simp [Cursor.tick_source, Moves.pull, hp, Cursor.Met]
  | cons o os ih =>
    apply Cursor.Plays.of_met
    intro w
    obtain ⟨s', v, hp, hs⟩ := h w
    cases o with
    | yield a =>
      simp only [Cursor.tick_source, Moves.pull, hp, Outcome.answer, Bool.false_eq_true, if_false]
      exact ⟨os, rfl, ih hs⟩
    | panic p =>
      simp only [Cursor.tick_source, Moves.pull, hp, Outcome.answer, Bool.false_eq_true, if_false]
      exact ⟨os, rfl, ih hs⟩

theorem Cursor.plays_slice (xs : Array α) (i : Nat) :
    (Cursor.slice (W := W) xs i).Plays ((xs.toList.drop i).map .yield) := by
  generalize hl : xs.toList.drop i = left
  induction left generalizing i with
  | nil =>
    apply Plays.of_met
    intro w
    have hi : xs.size ≤ i := by simpa using hl
    rw [tick_slice, Array.getElem?_eq_none hi]
    rfl
  | cons a left ih =>
    apply Plays.of_met
    intro w
    have ha : xs[i]? = some a := by
      rw [← Array.getElem?_toList, ← List.head?_drop, hl]
      rfl
    have hr : xs.toList.drop (i + 1) = left := by
      rw [← List.tail_drop, hl]
      rfl
    rw [tick_slice, ha]
    exact ⟨left.map .yield, rfl, ih (i + 1) hr⟩

namespace Stream

theorem plays_items (xs : Array α) : (items xs : Stream W α).Plays (xs.toList.map .yield) :=
  fun w => ⟨.slice xs 0, w, rfl, Cursor.plays_slice xs 0⟩

theorem follows_listSource (xs : List α) :
    (listSource : Source W (List α) α).Follows xs (xs.map .yield) := by
  induction xs with
  | nil => exact fun w => ⟨[], w, rfl⟩
  | cons a xs ih => exact fun w => ⟨xs, w, rfl, ih⟩

theorem plays_ofList (xs : List α) : (ofList xs : Stream W α).Plays (xs.map .yield) :=
  fun w => ⟨.source listSource false xs, w, rfl, (follows_listSource xs).plays⟩

end Stream

end PullStream
