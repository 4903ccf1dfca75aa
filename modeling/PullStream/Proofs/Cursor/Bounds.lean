import PullStream.Proofs.Cursor.Transition

/-!
# Storage is not overrun

A cursor over storage keeps its index within the storage, in whatever cursors it is wrapped. A new
cursor is so, and every transition keeps it, also one that comes with a panic.
-/

set_option autoImplicit false

namespace PullStream

universe u v

theorem Act.andThen_ok {W : Type} {α : Type u} {β : Type v} {x : Act W α} {f : α → Act W β}
    {b : β} {w w' : W} (h : x.andThen f w = (.ok b, w')) :
    ∃ a v, x w = (.ok a, v) ∧ f a v = (.ok b, w') := by
  unfold Act.andThen at h
  rcases hx : x w with ⟨_ | a, v⟩ <;> rw [hx] at h
  · cases h
  · exact ⟨a, v, rfl, h⟩

variable {W α : Type}

def Cursor.InBounds : {α : Type} → Cursor W α → Prop
  | _, .empty => True
  | _, .slice xs index => index ≤ xs.size
  | _, .source _ _ _ => True
  | _, .fused _ c => c.InBounds
  | _, .map _ c => c.InBounds
  | _, .filter _ c => c.InBounds
  | _, .filterMap _ c => c.InBounds
  | _, .first c _ => c.InBounds
  | _, .second c => c.InBounds
  | _, .tail _ c => c.InBounds
  | _, .limit _ c => c.InBounds
  | _, .distinct _ _ _ c => c.InBounds
  | _, .excludeFresh _ _ _ c => c.InBounds
  | _, .excludeDrain _ _ _ d _ c => d.InBounds ∧ c.InBounds
  | _, .excludeReady _ _ _ c => c.InBounds
  | _, .flatten _ outer => outer.InBounds
  | _, .flattenIn _ inner outer => inner.InBounds ∧ outer.InBounds
  | _, .descend _ _ c => c.InBounds
  | _, .dive _ _ _ top rest => top.InBounds ∧ rest.InBounds

theorem Stream.cursor_inBounds (s : Stream W α) {c : Cursor W α} {w w' : W}
    (h : s.cursor w = (.ok c, w')) : c.InBounds := by
  induction s generalizing w w' with
  | empty => cases h; trivial
  | items xs => cases h; exact Nat.zero_le _
  | source start src =>
    obtain ⟨s, v, -, hs⟩ := Act.andThen_ok h
    cases hs
    trivial
  | deferred start book ih =>
    obtain ⟨i, v, -, hi⟩ := Act.andThen_ok h
    exact ih i hi
  | fused _ ih | mapping _ _ ih | filtering _ _ ih | choosing _ _ ih | joining _ _ ih
  | skipping _ _ ih | capping _ _ ih | deduplicating _ _ _ ih | excluding _ _ _ _ _ ih
  | flattening _ _ _ ih | descending _ _ _ _ ih =>
    obtain ⟨d, v, hd, hc⟩ := Act.andThen_ok h
    cases hc
    have hb := ih hd
    exact hb

namespace Cursor

theorem Becomes.inBounds {c d : Cursor W α} (h : c.Becomes d) (hc : c.InBounds) : d.InBounds := by
  induction h with
  | stay => exact hc
  | slice h => exact h hc
  | source => trivial
  | handOver ho =>
    have hd := Stream.cursor_inBounds _ ho
    exact hd
  | handOverLost | descentEnded => trivial
  | drainOpened ho => exact ⟨Stream.cursor_inBounds _ ho, hc⟩
  | drain h ih | flattenIn h ih | dive h ih => exact ⟨ih hc.1, hc.2⟩
  | drainLost | drained | innerEnded | surfaced => exact hc.2
  | innerOpened h ho ih | entered h _ ho ih => exact ⟨Stream.cursor_inBounds _ ho, ih hc⟩
  | enteredDeeper h _ ho ih => exact ⟨Stream.cursor_inBounds _ ho, ih hc.1, hc.2⟩
  | fused h ih | map h ih | filter h ih | filterMap h ih | first h ih | second h ih | tail h ih
  | limit h hm ih | distinct h ih | excludeReady h ih | flatten h ih | descend h ih =>
    have hd := ih hc
    exact hd

end Cursor

end PullStream
