import PullStream.Proofs.Cursor.Ending
import PullStream.Proofs.Cursor.Session

/-!
# Termination is stable

Once a cursor has reported its end, it reports it for ever, and no call reaches a callback or a
source again. A step that reports the end and a skip that runs short both arrive at an ended cursor,
and no call changes one; pruning a traversal that has ended has nothing to cut off.
-/

set_option autoImplicit false

namespace PullStream

variable {W α ν ι : Type}

namespace Cursor

/-- The call that made the first cursor the second one reported the end. -/
def Ends (c d : Cursor W α) : Prop :=
  (∃ fuel w w', c.step fuel w = some (.ok .done, d, w')) ∨
    ∃ fuel n w w', c.advanceBy fuel n w = some (.ok false, d, w')

/-- Every call reports the end again by the first move, and changes neither cursor nor world. -/
structure StaysEnded (c : Cursor W α) : Prop where
  step : ∀ fuel w, c.step (fuel + 1) w = some (.ok .done, c, w)
  advanceBy : ∀ fuel n w, c.advanceBy (fuel + 1) n w = some (.ok (n == 0), c, w)

theorem Ends.ended {c d : Cursor W α} (h : c.Ends d) (hc : c.Firm) : d.Ended := by
  rcases h with ⟨fuel, w, w', h⟩ | ⟨fuel, n, w, w', h⟩
  · exact ended_of_step hc h
  · exact ended_of_advanceBy hc h

theorem Ended.staysEnded {c : Cursor W α} (h : c.Ended) : c.StaysEnded where
  step fuel w := by rw [Cursor.step, h.tick]
  advanceBy fuel n w := by rw [Cursor.advanceBy, h.skip]

theorem StaysEnded.later {c d : Cursor W α} (h : c.StaysEnded) (hl : c.Later d) : d = c := by
  induction hl with
  | same => rfl
  | @step _ e fuel _ w w' _ hs ih =>
    subst ih
    cases fuel with
    | zero => cases hs
    | succ fuel =>
      rw [h.step] at hs
      cases hs
      rfl
  | @advanceBy _ e fuel n _ w w' _ hs ih =>
    subst ih
    cases fuel with
    | zero => cases hs
    | succ fuel =>
      rw [h.advanceBy] at hs
      cases hs
      rfl

theorem Ended.ascend {c : Cursor W α} (h : c.Ended) : c.ascend = c := by
  cases c with
  | descend | dive => exact h.elim
  | _ => rfl

end Cursor

namespace TreeCursor

/-- The call that made the first traversal the second one reported the end. -/
def Ends (t u : TreeCursor W ν) : Prop :=
  (∃ fuel w w', t.step fuel w = some (.ok .done, u, w')) ∨
    ∃ fuel n w w', t.advanceBy fuel n w = some (.ok false, u, w')

/-- Every call reports the end again by the first move. It changes neither the open streams nor the
world, and of the traversal only that no prune is pending any more. -/
structure StaysEnded (t : TreeCursor W ν) : Prop where
  step : ∀ fuel w, t.step (fuel + 1) w = some (.ok .done, { t with pruning := false }, w)
  advanceBy : ∀ fuel n w, t.advanceBy (fuel + 1) n w =
    some (.ok (n == 0), if n = 0 then t else { t with pruning := false }, w)

theorem settle_of_ended {t : TreeCursor W ν} (h : t.path.Ended) :
    t.settle = { t with pruning := false } := by
  obtain ⟨path, pruning, base⟩ := t
  unfold settle
  cases pruning
  · rfl
  · simp only [if_true, Cursor.Ended.ascend h]

theorem ended_staysEnded {t : TreeCursor W ν} (h : t.path.Ended) : t.StaysEnded where
  step fuel w := by
    simp only [TreeCursor.step, along, settle_of_ended h, h.staysEnded.step]
    rfl
  advanceBy fuel n w := by
    unfold TreeCursor.advanceBy
    split
    · next hn => simp [hn]
    · simp only [along, settle_of_ended h, h.staysEnded.advanceBy]
      rfl

theorem Ends.ended {t u : TreeCursor W ν} (h : t.Ends u) (ht : t.path.Firm) : u.path.Ended := by
  rcases h with ⟨fuel, w, w', h⟩ | ⟨fuel, n, w, w', h⟩
  · exact Cursor.ended_of_step (settle_firm ht) (along_eq_some h).1
  · unfold TreeCursor.advanceBy at h
    split at h
    · cases h
    · exact Cursor.ended_of_advanceBy (settle_firm ht) (along_eq_some h).1

theorem Later.ended {t u : TreeCursor W ν} (h : t.Later u) (ht : t.path.Ended) :
    u.path.Ended := by
  have settled : ∀ {u : TreeCursor W ν}, u.path.Ended → u.settle.path.Ended := by
    intro u hu
    rwa [settle_of_ended hu]
  induction h with
  | same => exact ht
  | prune _ ih => exact ih
  | step _ hs ih =>
    have hp := (settled ih).staysEnded.later (.step .same (along_eq_some hs).1)
    rw [hp]
    exact settled ih
  | advanceBy _ hs ih =>
    unfold TreeCursor.advanceBy at hs
    split at hs
    · cases hs
      exact ih
    · have hp := (settled ih).staysEnded.later (.advanceBy .same (along_eq_some hs).1)
      rw [hp]
      exact settled ih

end TreeCursor

theorem TreeStream.cursor_inBounds (t : TreeStream W ν ι) {c : TreeCursor W ν} {w w' : W}
    (h : t.cursor w = (.ok c, w')) : c.path.InBounds := by
  obtain ⟨p, v, hp, hc⟩ := Act.andThen_ok h
  cases hc
  exact Stream.cursor_inBounds _ hp

/-- A traversal gives up every stream that has ended, so no supplier is asked again behind its
end. -/
theorem TreeStream.cursor_firm (t : TreeStream W ν ι) {c : TreeCursor W ν} {w w' : W}
    (h : t.cursor w = (.ok c, w')) : c.path.Firm := by
  obtain ⟨p, v, hp, hc⟩ := Act.andThen_ok h
  cases hc
  exact Stream.cursor_firm (s := t.stream) trivial hp

/-- Every number is the parent of the next one; the calls for children are logged. -/
def succession : TreeStream (List Nat) Nat Nat where
  root := 0
  children n log := (.ok n, n :: log)
  book n := .items #[n + 1]
  includesRoot := false

end PullStream
