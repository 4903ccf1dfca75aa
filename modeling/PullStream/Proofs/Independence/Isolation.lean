import PullStream.Proofs.Independence.Combinators
import Mathlib.Logic.Equiv.Defs
import Mathlib.Logic.IsEmpty.Basic

/-!
# Callbacks that share nothing

A `view` of a world tells the state that calls share from the log. A callback is isolated if all that
it does is to answer or panic and to put entries at the end of the log, and that in every world alike.
This is so exactly if it overlooks whatever else the shared state may be and was logged before
(`past`), so what is known of streams that overlook a part of the world is known of streams that
share nothing.
-/

set_option autoImplicit false

namespace PullStream

universe u

variable {W S E α : Type} (view : W ≃ S × List E)

/-- The world with further entries at the end of its log. -/
def logged (es : List E) (w : W) : W := view.symm ((view w).1, (view w).2 ++ es)

/-- The entries that the log of the second world has behind those of the first one. -/
def added (w v : W) : List E := (view v).2.drop (view w).2.length

/-- The world with another shared state, and with other entries in front of its log. -/
def past (p : S × List E) (w : W) : W := view.symm (p.1, p.2 ++ (view w).2)

/-- The world with an empty log. -/
def unlogged (w : W) : W := view.symm ((view w).1, [])

@[simp] theorem added_logged (es : List E) (w : W) : added view w (logged view es w) = es := by
  simp [added, logged]

theorem past_logged (p : S × List E) (es : List E) (w : W) :
    past view p (logged view es w) = logged view es (past view p w) := by
  simp [past, logged]

/-- Any world is the past of any other. -/
theorem past_unlogged (w₀ w : W) : past view (view w) (unlogged view w₀) = w := by
  simp only [past, unlogged, Equiv.apply_symm_apply, List.append_nil]
  exact view.symm_apply_apply w

/-- What is known of all pasts of a world without a log is known of all worlds. -/
theorem told_unlogged {T : Type u} {f : W → T} {g : S × List E → T → T}
    (h : ∀ p w, f (past view p w) = g p (f w)) (w₀ w : W) :
    f w = g (view w) (f (unlogged view w₀)) := by
  rw [← h, past_unlogged]

section Callbacks

variable {view}

/-- In all worlds the callback comes to the same, and all that it changes is the log, in which it puts
the same entries. -/
def Act.Isolated {α : Type u} (view : W ≃ S × List E) (x : Act W α) : Prop :=
  ∃ r es, ∀ w, x w = (r, logged view es w)

theorem Act.isolated_iff {α : Type u} {x : Act W α} :
    x.Isolated view ↔ ∀ p, x.Overlooks (past view p) := by
  constructor
  · rintro ⟨r, es, hx⟩ p w
    rw [hx, hx, carry_mk, past_logged]
  · intro h
    rcases isEmpty_or_nonempty W with hw | ⟨⟨w₀⟩⟩
    · exact ⟨.error ⟨""⟩, [], isEmptyElim⟩
    · rcases hx : x (unlogged view w₀) with ⟨r, v⟩
      refine ⟨r, (view v).2, fun w => ?_⟩
      rw [told_unlogged view h w₀ w, hx]
      rfl

theorem Act.Isolated.overlooks {α : Type u} {x : Act W α} (hx : x.Isolated view)
    (p : S × List E) : x.Overlooks (past view p) :=
  isolated_iff.mp hx p

theorem Act.isolated_done {α : Type u} (a : α) : (done a : Act W α).Isolated view :=
  isolated_iff.mpr fun _ => overlooks_done a

structure Source.Isolated {σ α : Type} (view : W ≃ S × List E) (src : Source W σ α) : Prop where
  pull : ∀ s, ∃ r s' es, ∀ w, src.pull s w = (r, s', logged view es w)
  jump : ∀ jump ∈ src.jump, ∀ n s, ∃ r s' es, ∀ w, jump n s w = (r, s', logged view es w)

/-- What overlooks every past does the same in all worlds. -/
theorem exists_logged {ρ σ : Type} {f : W → Except Panic ρ × σ × W} (s : σ)
    (h : ∀ p w, f (past view p w) = carry (carry (past view p)) (f w)) :
    ∃ r s' es, ∀ w, f w = (r, s', logged view es w) := by
  rcases isEmpty_or_nonempty W with hw | ⟨⟨w₀⟩⟩
  · exact ⟨.error ⟨""⟩, s, [], isEmptyElim⟩
  · rcases hf : f (unlogged view w₀) with ⟨r, s', v⟩
    refine ⟨r, s', (view v).2, fun w => ?_⟩
    rw [told_unlogged view h w₀ w, hf]
    rfl

theorem Source.isolated_iff {σ α : Type} {src : Source W σ α} :
    src.Isolated view ↔ ∀ p, src.Overlooks (past view p) := by
  constructor
  · refine fun h p => ⟨fun s w => ?_, fun jump hj n s w => ?_⟩
    · obtain ⟨r, s', es, hp⟩ := h.pull s
      simp only [hp, carry, past_logged]
    · obtain ⟨r, s', es, hp⟩ := h.jump jump hj n s
      simp only [hp, carry, past_logged]
  · exact fun h => ⟨fun s => exists_logged s fun p => (h p).pull s,
      fun jump hj n s => exists_logged s fun p => (h p).jump jump hj n s⟩

end Callbacks

/-! ## Recipes -/

/-- No callback that a session over the stream may come to call shares anything, and no source. -/
def Stream.Isolated (s : Stream W α) : Prop :=
  s.Calls (fun _ => Act.Isolated view) (fun _ _ => Source.Isolated view)

structure TreeStream.Isolated {ν ι : Type} (t : TreeStream W ν ι) : Prop where
  children : ∀ n, (t.children n).Isolated view
  book : ∀ i, (t.book i).Isolated view

variable {view}

theorem Stream.isolated_iff {s : Stream W α} :
    s.Isolated view ↔ ∀ p, s.Overlooks (past view p) := by
  have acts {β γ : Type} (f : β → Act W γ) :
      (∀ b, (f b).Isolated view) ↔ ∀ p b, (f b).Overlooks (past view p) := by
    simp only [Act.isolated_iff]
    exact forall_comm
  unfold Stream.Isolated Stream.Overlooks
  induction s with
  | empty | items => simp only [Calls, implies_true]
  | source start src => simp only [Calls, forall_and, Act.isolated_iff, Source.isolated_iff]
  | fused _ ih | skipping _ _ ih | capping _ _ ih => simpa only [Calls] using ih
  | deferred start book ih =>
    simp only [Calls, forall_and, Act.isolated_iff, ih]
    exact and_congr_right fun _ => forall_comm
  | joining _ _ iha ihb => simp only [Calls, forall_and, iha, ihb]
  | mapping _ _ ih | filtering _ _ ih | choosing _ _ ih | deduplicating _ _ _ ih =>
    simp only [Calls, forall_and, acts, ih]
  | excluding _ _ _ _ iho ih => simp only [Calls, forall_and, acts, iho, ih]
  | flattening _ _ ihb ih =>
    simp only [Calls, forall_and, ihb, ih]
    exact and_congr_left fun _ => forall_comm
  | descending visit _ _ ihb ih =>
    simp only [Calls, forall_and, acts, ihb, ih]
    exact and_congr forall_comm (and_congr_left fun _ => forall_comm)

end PullStream
