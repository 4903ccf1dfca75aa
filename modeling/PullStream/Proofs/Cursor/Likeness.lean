import PullStream.Proofs.Cursor.Walk

/-!
# Cursors that make the same steps

Two cursors need not move alike to be alike for their holder. It is enough that each makes the steps
that the other makes, however many moves these take. `Mimics` is one direction of that, for steps of
a given kind; what it says of single steps it says of walks, and so of all calls. `Stream.Concurs`
compares two streams in this way.
-/

set_option autoImplicit false

namespace PullStream

variable {W α : Type}

/-- The step did not panic. -/
def Pace.Calm (x : Pace W α) : Prop := ∀ p, x.outcome ≠ .error p

/-- None of the calls came back with a panic. -/
def Calm (rs : List (Except Panic (Reply α) × W)) : Prop := ∀ r ∈ rs, ∀ p, r.1 ≠ .error p

theorem Passed.calm {n : Nat} {w v : W} {l : List (Pace W α)} {r : Except Panic Bool}
    (h : Passed n w l r v) (hr : ∀ p, r ≠ .error p) : ∀ x ∈ l, x.Calm := by
  induction h with
  | enough => exact nofun
  | more _ ih => exact List.forall_mem_cons.mpr ⟨nofun, ih hr⟩
  | short => exact List.forall_mem_singleton.mpr nofun
  | panicked => exact absurd rfl (hr _)

theorem Made.calm {w : W} {calls : List (Call W)} {l : List (Pace W α)}
    {rs : List (Except Panic (Reply α) × W)} (h : Made w calls l rs) (hr : Calm rs) :
    ∀ x ∈ l, x.Calm := by
  induction h with
  | nil => exact nofun
  | @step _ _ x _ _ _ _ ih =>
    obtain ⟨hx, hr⟩ := List.forall_mem_cons.mp hr
    refine List.forall_mem_cons.mpr ⟨fun p hp => ?_, ih hr⟩
    exact hx p (congrArg (Except.map Reply.stepped) hp)
  | @advanceBy _ _ _ r _ _ _ _ hm _ ih =>
    obtain ⟨hx, hr⟩ := List.forall_mem_cons.mp hr
    have hp : ∀ p, r ≠ .error p := fun p hp => hx p (congrArg (Except.map Reply.advanced) hp)
    exact List.forall_mem_append.mpr ⟨hm.calm hp, ih hr⟩
  | meanwhile _ ih => exact ih (List.forall_mem_cons.mp hr).2

namespace Cursor

/-- The second of two related cursors makes every step of the given kind that the first one makes,
and related cursors are left. -/
def Mimics (P : Pace W α → Prop) (R : Cursor W α → Cursor W α → Prop) : Prop :=
  ∀ ⦃c d e x⦄, R c d → P x → Settles (c.step · x.before) (x.outcome, e, x.after) →
    ∃ f, Settles (d.step · x.before) (x.outcome, f, x.after) ∧ R e f

variable {P : Pace W α → Prop} {R : Cursor W α → Cursor W α → Prop} {c d e : Cursor W α}

theorem Mimics.walks (h : Mimics P R) (hr : R c d) {l : List (Pace W α)} (hl : ∀ x ∈ l, P x)
    (hw : c.Walks l e) : ∃ f, d.Walks l f ∧ R e f := by
  induction hw generalizing d with
  | nil => exact ⟨d, .nil, hr⟩
  | cons hs _ ih =>
    obtain ⟨hx, hl⟩ := List.forall_mem_cons.mp hl
    obtain ⟨f, hs, hr⟩ := h hr hx hs
    obtain ⟨g, hw, hr⟩ := ih hr hl
    exact ⟨g, .cons hs hw, hr⟩

/-- A cursor that leaves elements out by steps and stays within its storage, so that its steps are
all that there is to say about it. -/
def Orderly (c : Cursor W α) : Prop := c.Strides ∧ c.InBounds

theorem Orderly.settles_replies_iff (h : c.Orderly) (w : W) (calls : List (Call W))
    (rs : List (Except Panic (Reply α) × W)) :
    Settles (c.replies · w calls) rs ↔ ∃ l d, c.Walks l d ∧ Made w calls l rs :=
  Cursor.settles_replies_iff h.1 h.2 w calls rs

theorem Orderly.step {w v : W} {x : Except Panic (Step α)} (h : c.Orderly)
    (hs : Settles (c.step · w) (x, d, v)) : d.Orderly := by
  have hw : c.Walks [⟨w, x, v⟩] d := .cons hs .nil
  exact ⟨hw.strides h.1, hw.inBounds h.2⟩

theorem Mimics.replies (h : Mimics P R) (hr : R c d) (hc : c.Orderly) (hd : d.Orderly) {w : W}
    {calls : List (Call W)} {rs : List (Except Panic (Reply α) × W)}
    (hp : ∀ l, Made w calls l rs → ∀ x ∈ l, P x) (hs : Settles (c.replies · w calls) rs) :
    Settles (d.replies · w calls) rs := by
  obtain ⟨l, e, hw, hm⟩ := (hc.settles_replies_iff w calls rs).mp hs
  obtain ⟨f, hw, -⟩ := h.walks hr (hp l hm) hw
  exact (hd.settles_replies_iff w calls rs).mpr ⟨l, f, hw, hm⟩

end Cursor

namespace Stream

theorem cursor_orderly {s : Stream W α} (hs : s.Strides) {c : Cursor W α} {w v : W}
    (h : s.cursor w = (.ok c, v)) : c.Orderly :=
  ⟨s.cursor_strides hs h, s.cursor_inBounds h⟩

/-- Both streams open alike, and if that succeeds then whatever is called on their cursors, the one
comes back with replies of the given kind exactly if the other comes back with these. -/
def Concurs (Q : List (Except Panic (Reply α) × W) → Prop) (s t : Stream W α) : Prop :=
  ∀ w, (∃ p v, s.cursor w = (.error p, v) ∧ t.cursor w = (.error p, v)) ∨
    ∃ c d v, s.cursor w = (.ok c, v) ∧ t.cursor w = (.ok d, v) ∧
      ∀ calls rs, Q rs → (Settles (c.replies · v calls) rs ↔ Settles (d.replies · v calls) rs)

variable {Q : List (Except Panic (Reply α) × W) → Prop} {s t : Stream W α}

theorem Concurs.refl (s : Stream W α) : s.Concurs Q s := by
  intro w
  rcases h : s.cursor w with ⟨p | c, v⟩
  · exact .inl ⟨p, v, rfl, rfl⟩
  · exact .inr ⟨c, c, v, rfl, rfl, fun _ _ _ => .rfl⟩

/-- Streams whose cursors stand around the cursors of one other stream concur when each of those
makes the steps of the other. -/
theorem concurs_of_mimics {β : Type} {inner : Stream W β} (around : Cursor W β → Cursor W α)
    {beside : Cursor W β → Cursor W α} {P : Pace W α → Prop} {R : Cursor W α → Cursor W α → Prop}
    (hs : s.cursor = inner.cursor.andThen fun c => Act.done (around c))
    (ht : t.cursor = inner.cursor.andThen fun c => Act.done (beside c))
    (hr : ∀ c w v, inner.cursor w = (.ok c, v) →
      R (around c) (beside c) ∧ (around c).Orderly ∧ (beside c).Orderly)
    (h : Cursor.Mimics P R) (h' : Cursor.Mimics P (Function.swap R))
    (hp : ∀ (w : W) calls l rs, Made w calls l rs → Q rs → ∀ x ∈ l, P x) : s.Concurs Q t := by
  intro w
  simp only [hs, ht, Act.andThen, Act.done]
  rcases ho : inner.cursor w with ⟨p | c, v⟩
  · exact .inl ⟨p, v, rfl, rfl⟩
  · obtain ⟨hr, hc, hd⟩ := hr c w v ho
    refine .inr ⟨_, _, v, rfl, rfl, fun calls rs hq => ⟨?_, ?_⟩⟩
    · exact h.replies hr hc hd fun l hm => hp v calls l rs hm hq
    · exact h'.replies hr hd hc fun l hm => hp v calls l rs hm hq

end Stream

end PullStream
