import PullStream.Cursor.Drive

/-!
# Answers that more fuel does not change

A computation with fuel settles on an answer when every large enough amount of fuel leads to it.
Claims about whole runs are stated with `Settles`, so they say that the run comes back, and the
lemmas below put a run together from its moves without an amount of fuel in sight.
-/

set_option autoImplicit false

namespace PullStream

universe u v

variable {β : Type u} {γ : Type v}

def Settles (f : Nat → Option β) (b : β) : Prop := ∃ least, ∀ fuel, least ≤ fuel → f fuel = some b

theorem Settles.unique {f : Nat → Option β} {b c : β} (hb : Settles f b) (hc : Settles f c) :
    b = c := by
  obtain ⟨m, hm⟩ := hb
  obtain ⟨n, hn⟩ := hc
  have h := hm (max m n) (Nat.le_max_left m n)
  rw [hn (max m n) (Nat.le_max_right m n)] at h
  exact (Option.some.inj h).symm

theorem Settles.comes {f : Nat → Option β} {b : β} (h : Settles f b) : ∃ fuel, f fuel = some b := by
  obtain ⟨least, hl⟩ := h
  exact ⟨least, hl least (Nat.le_refl least)⟩

/-- One unit of fuel is enough. -/
theorem settles_of_first {f : Nat → Option β} {b : β} (h : ∀ fuel, f (fuel + 1) = some b) :
    Settles f b := by
  refine ⟨1, fun fuel hf => ?_⟩
  obtain ⟨n, rfl⟩ := Nat.exists_eq_add_of_le' hf
  exact h n

/-- One unit of fuel is spent before the rest of the run. -/
theorem settles_of_next {f g : Nat → Option β} {b : β} (h : ∀ fuel, f (fuel + 1) = g fuel)
    (hg : Settles g b) : Settles f b := by
  obtain ⟨least, hl⟩ := hg
  refine ⟨least + 1, fun fuel hf => ?_⟩
  obtain ⟨n, rfl⟩ := Nat.exists_eq_add_of_le' (Nat.le_of_add_left_le hf)
  rw [h n]
  exact hl n (by omega)

/-- A first part of the run settles, and the whole goes on from its answer. -/
theorem settles_of_part {f : Nat → Option β} {g h : Nat → Option γ} {b : β} {c : γ}
    (hf : Settles f b) (hgh : ∀ fuel, f fuel = some b → h (fuel + 1) = g fuel)
    (hg : Settles g c) : Settles h c := by
  obtain ⟨m, hm⟩ := hf
  obtain ⟨n, hn⟩ := hg
  refine ⟨max m n + 1, fun fuel hfuel => ?_⟩
  obtain ⟨k, rfl⟩ := Nat.exists_eq_add_of_le' (Nat.le_of_add_left_le hfuel)
  rw [hgh k (hm k (by omega))]
  exact hn k (by omega)

theorem settles_of_both {δ : Type u} {f : Nat → Option β} {g : Nat → Option γ} {h : Nat → Option δ}
    {b : β} {c : γ} {d : δ} (hf : Settles f b) (hg : Settles g c)
    (hh : ∀ fuel, f fuel = some b → g fuel = some c → h fuel = some d) : Settles h d := by
  obtain ⟨m, hm⟩ := hf
  obtain ⟨n, hn⟩ := hg
  exact ⟨max m n, fun fuel hfuel => hh fuel (hm fuel (by omega)) (hn fuel (by omega))⟩

theorem Settles.map {f : Nat → Option β} {b : β} (g : β → γ) (h : Settles f b) :
    Settles (fun fuel => (f fuel).map g) (g b) := by
  obtain ⟨least, hl⟩ := h
  exact ⟨least, fun fuel hf => congrArg (Option.map g) (hl fuel hf)⟩

theorem Settles.of_map {f : Nat → Option β} {g : β → γ} (hg : Function.Injective g) {c : γ}
    (h : Settles (fun fuel => (f fuel).map g) c) : ∃ b, Settles f b ∧ g b = c := by
  obtain ⟨least, hl⟩ := h
  obtain ⟨b, -, hb⟩ := Option.map_eq_some_iff.mp (hl least (Nat.le_refl least))
  refine ⟨b, ⟨least, fun fuel hf => ?_⟩, hb⟩
  obtain ⟨b', hb', hc⟩ := Option.map_eq_some_iff.mp (hl fuel hf)
  rwa [← hg (hc.trans hb.symm)]

/-- What the computation comes to with some fuel it comes to with any more. -/
def Lasting (f : Nat → Option β) : Prop := ∀ fuel b, f fuel = some b → Settles f b

theorem Lasting.map {f : Nat → Option β} (h : Lasting f) (g : β → γ) :
    Lasting fun fuel => (f fuel).map g := by
  intro fuel c hc
  obtain ⟨b, hb, rfl⟩ := Option.map_eq_some_iff.mp hc
  exact (h fuel b hb).map g

theorem Lasting.settles_map_iff {f : Nat → Option β} (h : Lasting f) (g : β → γ) (c : γ) :
    Settles (fun fuel => (f fuel).map g) c ↔ ∃ b, Settles f b ∧ c = g b := by
  constructor
  · intro hc
    obtain ⟨fuel, hc⟩ := hc.comes
    obtain ⟨b, hb, rfl⟩ := Option.map_eq_some_iff.mp hc
    exact ⟨b, h fuel b hb, rfl⟩
  · rintro ⟨b, hb, rfl⟩
    exact hb.map g

namespace Cursor

variable {W α : Type} {c d : Cursor W α} {w v : W}

theorem settles_step_silent {r : Except Panic (Step α) × Cursor W α × W}
    (h : c.tick w = (.silent, d, v)) (hd : Settles (d.step · v) r) : Settles (c.step · w) r :=
  settles_of_next (fun fuel => by rw [step, h]) hd

theorem settles_step_yield {a : α} (h : c.tick w = (.yield a, d, v)) :
    Settles (c.step · w) (.ok (.yield a), d, v) :=
  settles_of_first fun fuel => by rw [step, h]

theorem settles_step_done (h : c.tick w = (.done, d, v)) :
    Settles (c.step · w) (.ok .done, d, v) :=
  settles_of_first fun fuel => by rw [step, h]

theorem settles_step_panic {p : Panic} (h : c.tick w = (.panic p, d, v)) :
    Settles (c.step · w) (.error p, d, v) :=
  settles_of_first fun fuel => by rw [step, h]

theorem settles_of_step {fuel : Nat} {r : Except Panic (Step α) × Cursor W α × W}
    (h : c.step fuel w = some r) : Settles (c.step · w) r := by
  induction fuel generalizing c w with
  | zero => cases h
  | succ fuel ih =>
    rw [step] at h
    rcases ht : c.tick w with ⟨_ | a | _ | p, d, v⟩ <;> rw [ht] at h
    · exact settles_step_silent ht (ih h)
    · cases h
      exact settles_step_yield ht
    · cases h
      exact settles_step_done ht
    · cases h
      exact settles_step_panic ht

theorem lasting_step (c : Cursor W α) (w : W) : Lasting (c.step · w) :=
  fun _ _ h => settles_of_step h

end Cursor

end PullStream
