import PullStream.Proofs.Cursor.Surrounding
import PullStream.Proofs.Outcome

/-!
# Outcomes of a descent

A descent keeps one open stream per level and drains the one opened last. `Spliced` says without
cursors what that comes to: the outcomes of a stream that is entered stand in the place of the
element that named it. `Plays.dive` carries it through any stack of open streams, whatever is to
come from the rest of the stack.
-/

set_option autoImplicit false

namespace PullStream

variable {W α β ι : Type}

/-- The outcomes of a stream whose elements are met at a level, with what they lead to spliced in. -/
inductive Spliced (visit : Nat → β → Act W (Visit ι α)) (book : ι → Stream W β) :
    Nat → List (Outcome β) → List (Outcome α) → Prop
  | nil {level : Nat} : Spliced visit book level [] []
  | panic {level : Nat} {p : Panic} {os : List (Outcome β)} {rs : List (Outcome α)}
      (hr : Spliced visit book level os rs) :
      Spliced visit book level (.panic p :: os) (.panic p :: rs)
  | refused {level : Nat} {b : β} {p : Panic} {os : List (Outcome β)} {rs : List (Outcome α)}
      (hv : ∀ w, ∃ v, visit level b w = (.error p, v)) (hr : Spliced visit book level os rs) :
      Spliced visit book level (.yield b :: os) (.panic p :: rs)
  | emit {level : Nat} {b : β} {a : α} {os : List (Outcome β)} {rs : List (Outcome α)}
      (hv : ∀ w, ∃ v, visit level b w = (.ok (.emit a), v)) (hr : Spliced visit book level os rs) :
      Spliced visit book level (.yield b :: os) (.yield a :: rs)
  | enter {level : Nat} {b : β} {inner os : List (Outcome β)} {qs rs : List (Outcome α)}
      (hv : ∀ w, ∃ i v, visit level b w = (.ok (.enter i), v) ∧ (book i).Plays inner)
      (hq : Spliced visit book (level + 1) inner qs) (hr : Spliced visit book level os rs) :
      Spliced visit book level (.yield b :: os) (qs ++ rs)
  | emitAndEnter {level : Nat} {b : β} {a : α} {inner os : List (Outcome β)}
      {qs rs : List (Outcome α)}
      (hv : ∀ w, ∃ i v, visit level b w = (.ok (.emitAndEnter a i), v) ∧ (book i).Plays inner)
      (hq : Spliced visit book (level + 1) inner qs) (hr : Spliced visit book level os rs) :
      Spliced visit book level (.yield b :: os) (.yield a :: (qs ++ rs))

variable {visit : Nat → β → Act W (Visit ι α)} {book : ι → Stream W β}

namespace Moves

/-- A move of a descent, made from a move of the stream that it drains. `around` is the descent
around that stream, and `finish` what it does when the stream has ended. -/
def draining (visit : Nat → β → Act W (Visit ι α)) (book : ι → Stream W β) (level : Nat)
    (around : Cursor W β → Cursor W α) (finish : W → Move α × Cursor W α × W) :
    Move β × Cursor W β × W → Move α × Cursor W α × W
  | (.silent, top, w) => (.silent, around top, w)
  | (.yield b, top, w) => descent visit book level b (around top) w
  | (.done, _, w) => finish w
  | (.panic p, top, w) => (.panic p, around top, w)

end Moves

open Moves Cursor

theorem Cursor.tick_descend_eq_draining (c : Cursor W β) (w : W) :
    (descend visit book c).tick w =
      draining visit book 0 (descend visit book) (fun w => (.done, .empty, w)) (c.tick w) := rfl

theorem Cursor.tick_dive_eq_draining (level : Nat) (top : Cursor W β) (rest : Cursor W α) (w : W) :
    (dive visit book level top rest).tick w =
      draining visit book level (dive visit book level · rest) (fun w => (.silent, rest, w))
        (top.tick w) := rfl

/-- A step of a descent begins with a step of the stream that it drains. -/
theorem settles_draining {level : Nat} {around : Cursor W β → Cursor W α}
    {finish : W → Move α × Cursor W α × W} {top top' : Cursor W β} {x : Except Panic (Step β)}
    {w v : W} {r : Except Panic (Step α) × Cursor W α × W}
    (ht : ∀ top w, (around top).tick w = draining visit book level around finish (top.tick w))
    (hs : Settles (top.step · w) (x, top', v))
    (hr : ∀ (c : Cursor W α) (u : W),
      c.tick u = draining visit book level around finish (.ofStep x, top', v) →
        Settles (c.step · u) r) :
    Settles ((around top).step · w) r := by
  have hd : Surrounds around (draining visit book level around finish) := ⟨ht, fun _ _ => rfl⟩
  exact hd.settles hs hr

/-- A descent plays what is spliced into the stream that it drains, and then what it finishes with,
at every level and around every stack of streams left open below. -/
theorem Spliced.plays {level : Nat} {os : List (Outcome β)} {rs : List (Outcome α)}
    (h : Spliced visit book level os rs) {around : Cursor W β → Cursor W α}
    {finish : W → Move α × Cursor W α × W} {qs : List (Outcome α)}
    (ht : ∀ top w, (around top).tick w = draining visit book level around finish (top.tick w))
    (hf : ∀ w, Met Plays qs (finish w)) {top : Cursor W β} (hp : top.Plays os) :
    (around top).Plays (rs ++ qs) := by
  have hs : ∀ {level : Nat} {around : Cursor W β → Cursor W α}
      {finish : W → Move α × Cursor W α × W},
      (∀ top w, (around top).tick w = draining visit book level around finish (top.tick w)) →
      ∀ c w d v, c.tick w = (.silent, d, v) → (around c).tick w = (.silent, around d, v) := by
    intro level around finish ht c w d v h
    rw [ht, h]
    rfl
  induction h generalizing around finish qs top with
  | nil =>
    apply hp.wrap_nil (hs ht)
    intro c w d v h
    rw [ht, h]
    exact hf v
  | panic hr ih =>
    apply hp.wrap_panic (hs ht)
    intro c w d v h hd
    rw [ht, h]
    exact ⟨_, rfl, ih ht hf hd⟩
  | refused hv hr ih =>
    apply hp.wrap_yield (hs ht)
    intro c w d v h hd
    obtain ⟨v', hv'⟩ := hv v
    simp only [ht, h, draining, descent, hv']
    exact ⟨_, rfl, ih ht hf hd⟩
  | emit hv hr ih =>
    apply hp.wrap_yield (hs ht)
    intro c w d v h hd
    obtain ⟨v', hv'⟩ := hv v
    simp only [ht, h, draining, descent, hv']
    exact ⟨_, rfl, ih ht hf hd⟩
  | enter hv hq hr ihq ihr =>
    apply hp.wrap_yield (hs ht)
    intro c w d v h hd
    obtain ⟨i, v', hv', hi⟩ := hv v
    obtain ⟨e, u, he, hep⟩ := hi v'
    simp only [ht, h, draining, descent, opening, hv', he, List.append_assoc]
    have hr : ∀ w, Met Plays _ (.silent, around d, w) := fun w => ihr ht hf hd
    exact ihq (tick_dive_eq_draining _ · (around d)) hr hep
  | emitAndEnter hv hq hr ihq ihr =>
    apply hp.wrap_yield (hs ht)
    intro c w d v h hd
    obtain ⟨i, v', hv', hi⟩ := hv v
    obtain ⟨e, u, he, hep⟩ := hi v'
    simp only [ht, h, draining, descent, opening, hv', he, List.cons_append, List.append_assoc]
    have hr : ∀ w, Met Plays _ (.silent, around d, w) := fun w => ihr ht hf hd
    exact ⟨_, rfl, ihq (tick_dive_eq_draining _ · (around d)) hr hep⟩

theorem Cursor.Plays.descend {c : Cursor W β} {os : List (Outcome β)} {rs : List (Outcome α)}
    (hc : c.Plays os) (h : Spliced visit book 0 os rs) : (descend visit book c).Plays rs := by
  have hp := h.plays tick_descend_eq_draining (fun w => show Met Plays [] _ from rfl) hc
  rwa [List.append_nil] at hp

end PullStream
