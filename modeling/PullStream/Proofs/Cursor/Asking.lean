import PullStream.Proofs.Cursor.Lockstep

/-!
# Asking for elements

Besides calling a cursor, its holder may ask for the next element, or for the one behind the next
`n`. What is left out for the latter is left out by `advanceBy`, so cursors in lockstep answer all
this alike, too.
-/

set_option autoImplicit false

namespace PullStream

variable {W α : Type}

/-- What a holder asks of a cursor. -/
inductive Query (W : Type) where
  | call (a : Call W)
  | next
  | nth (n : Nat)

inductive Answer (α : Type) where
  | replied (r : Reply α)
  | element (a : Option α)

namespace Cursor

def query (fuel : Nat) (c : Cursor W α) (w : W) :
    Query W → Option (Except Panic (Answer α) × Cursor W α × W)
  | .call a => (c.call fuel w a).map fun (r, c, w) => (r.map .replied, c, w)
  | .next => (c.next fuel w).map fun (r, c, w) => (r.map .element, c, w)
  | .nth n => (c.nth fuel n w).map fun (r, c, w) => (r.map .element, c, w)

/-- The answers to queries made one after the other, each with the world that it leaves. A panic is
caught, and the queries go on. -/
def answers (fuel : Nat) (c : Cursor W α) (w : W) :
    List (Query W) → Option (List (Except Panic (Answer α) × W))
  | [] => some []
  | q :: qs =>
    match c.query fuel w q with
    | none => none
    | some (r, c, w) => (c.answers fuel w qs).map ((r, w) :: ·)

variable {R : Cursor W α → Cursor W α → Prop} {c d : Cursor W α}

theorem Lockstep.next (h : Lockstep R) (hr : R c d) (fuel : Nat) (w : W) :
    Option.Rel (Alongside R) (c.next fuel w) (d.next fuel w) :=
  Alongside.map _ (h.step hr fuel w)

theorem Lockstep.nth (h : Lockstep R) (hr : R c d) (fuel n : Nat) (w : W) :
    Option.Rel (Alongside R) (c.nth fuel n w) (d.nth fuel n w) := by
  have ha := h.advanceBy hr fuel n w
  rw [Cursor.nth, Cursor.nth]
  generalize c.advanceBy fuel n w = x at ha ⊢
  generalize d.advanceBy fuel n w = y at ha ⊢
  cases ha with
  | none => exact .none
  | @some x y ha =>
    obtain ⟨r, c', v⟩ := x
    obtain ⟨r', d', v'⟩ := y
    obtain ⟨rfl : r = r', hr, rfl : v = v'⟩ := ha
    rcases r with p | _ | _
    · exact .some ⟨rfl, hr, rfl⟩
    · exact .some ⟨rfl, hr, rfl⟩
    · exact h.next hr fuel v

theorem Lockstep.query (h : Lockstep R) (hr : R c d) (fuel : Nat) (w : W) (q : Query W) :
    Option.Rel (Alongside R) (c.query fuel w q) (d.query fuel w q) := by
  cases q with
  | call a => exact Alongside.map _ (h.call hr fuel w a)
  | next => exact Alongside.map _ (h.next hr fuel w)
  | nth n => exact Alongside.map _ (h.nth hr fuel n w)

/-- Cursors in lockstep answer all queries alike. -/
theorem Lockstep.answers (h : Lockstep R) (hr : R c d) (fuel : Nat) (w : W) (qs : List (Query W)) :
    c.answers fuel w qs = d.answers fuel w qs := by
  induction qs generalizing c d w with
  | nil => rfl
  | cons q qs ih =>
    have ha := h.query hr fuel w q
    rw [Cursor.answers, Cursor.answers]
    generalize c.query fuel w q = x at ha ⊢
    generalize d.query fuel w q = y at ha ⊢
    cases ha with
    | none => rfl
    | @some x y ha =>
      obtain ⟨r, c', v⟩ := x
      obtain ⟨r', d', v'⟩ := y
      obtain ⟨rfl : r = r', hr, rfl : v = v'⟩ := ha
      simp only [ih hr v]

end Cursor

/-- One session with a stream: it is opened, which may panic, and then asked. -/
def Stream.answers (s : Stream W α) (fuel : Nat) (qs : List (Query W)) :
    Act W (Option (List (Except Panic (Answer α) × W))) :=
  s.cursor.andThen fun c => fun w => (.ok (c.answers fuel w qs), w)

end PullStream
