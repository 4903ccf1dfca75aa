import PullStream.Proofs.Cursor.Moves

/-!
# Calls on a cursor, and cursors in lockstep

The holder of a cursor makes calls and sees how they come back and the world that each of them
leaves, with all that callbacks and sources have logged there. Two cursors cannot be told apart when
all sessions with them show the same. It is enough that they move in lockstep: a relation that every
single move keeps makes all calls come back alike, for the same fuel and also after panics.
-/

set_option autoImplicit false

namespace PullStream

variable {W α : Type}

/-- What a holder does. Between two calls on the cursor the world may change in any way. -/
inductive Call (W : Type) where
  | step
  | advanceBy (n : Nat)
  | meanwhile (change : W → W)

inductive Reply (α : Type) where
  | stepped (s : Step α)
  | advanced (complete : Bool)
  | waited

namespace Cursor

def call (fuel : Nat) (c : Cursor W α) (w : W) :
    Call W → Option (Except Panic (Reply α) × Cursor W α × W)
  | .step => (c.step fuel w).map fun (r, c, w) => (r.map .stepped, c, w)
  | .advanceBy n => (c.advanceBy fuel n w).map fun (r, c, w) => (r.map .advanced, c, w)
  | .meanwhile change => some (.ok .waited, c, change w)

/-- The replies to calls made one after the other, each with the world that it leaves. A panic is
caught, and the calls go on. -/
def replies (fuel : Nat) (c : Cursor W α) (w : W) :
    List (Call W) → Option (List (Except Panic (Reply α) × W))
  | [] => some []
  | a :: calls =>
    match c.call fuel w a with
    | none => none
    | some (r, c, w) => (c.replies fuel w calls).map ((r, w) :: ·)

/-- The same came of two moves or calls, in the same world, and the cursors they left are
related. -/
def Alongside {μ : Type} (R : Cursor W α → Cursor W α → Prop) (x y : μ × Cursor W α × W) : Prop :=
  x.1 = y.1 ∧ R x.2.1 y.2.1 ∧ x.2.2 = y.2.2

/-- Related cursors make the same moves and stay related. -/
structure Lockstep (R : Cursor W α → Cursor W α → Prop) : Prop where
  tick : ∀ {c d}, R c d → ∀ w, Alongside R (c.tick w) (d.tick w)
  skip : ∀ {c d}, R c d → ∀ n w, Alongside R (c.skip n w) (d.skip n w)

variable {R : Cursor W α → Cursor W α → Prop} {c d : Cursor W α}

/-- What is left out step by step is left out alike when the steps are alike. -/
theorem Alongside.skip (hc : ¬ c.Jumps) (hd : ¬ d.Jumps) (hr : R c d) {w : W}
    (ht : Alongside R (c.tick w) (d.tick w)) (n : Nat) :
    Alongside R (c.skip n w) (d.skip n w) := by
  rw [skip_eq_skipBySteps hc, skip_eq_skipBySteps hd]
  cases n with
  | zero => exact ⟨rfl, hr, rfl⟩
  | succ n =>
    rcases hc : c.tick w with ⟨m, c', v⟩
    rcases hd : d.tick w with ⟨m', d', v'⟩
    rw [hc, hd] at ht
    obtain ⟨rfl : m = m', hr, rfl : v = v'⟩ := ht
    cases m <;> simp only [Moves.skipBySteps, hc, hd] <;> exact ⟨rfl, hr, rfl⟩

/-- Cursors that step over what they leave out only have to make the same moves. -/
theorem Lockstep.of_tick (hj : ∀ {c d}, R c d → ¬ c.Jumps ∧ ¬ d.Jumps)
    (ht : ∀ {c d}, R c d → ∀ w, Alongside R (c.tick w) (d.tick w)) : Lockstep R where
  tick := ht
  skip h n w := Alongside.skip (hj h).1 (hj h).2 h (ht h w) n

theorem Lockstep.step (h : Lockstep R) (hr : R c d) (fuel : Nat) (w : W) :
    Option.Rel (Alongside R) (c.step fuel w) (d.step fuel w) := by
  induction fuel generalizing c d w with
  | zero => exact .none
  | succ fuel ih =>
    have ha := h.tick hr w
    rw [Cursor.step, Cursor.step]
    generalize c.tick w = x at ha ⊢
    generalize d.tick w = y at ha ⊢
    obtain ⟨m, c', v⟩ := x
    obtain ⟨m', d', v'⟩ := y
    obtain ⟨rfl : m = m', hr, rfl : v = v'⟩ := ha
    cases m with
    | silent => exact ih hr v
    | _ => exact .some ⟨rfl, hr, rfl⟩

theorem Lockstep.advanceBy (h : Lockstep R) (hr : R c d) (fuel n : Nat) (w : W) :
    Option.Rel (Alongside R) (c.advanceBy fuel n w) (d.advanceBy fuel n w) := by
  induction fuel generalizing c d n w with
  | zero => exact .none
  | succ fuel ih =>
    have ha := h.skip hr n w
    rw [Cursor.advanceBy, Cursor.advanceBy]
    generalize c.skip n w = x at ha ⊢
    generalize d.skip n w = y at ha ⊢
    obtain ⟨m, c', v⟩ := x
    obtain ⟨m', d', v'⟩ := y
    obtain ⟨rfl : m = m', hr, rfl : v = v'⟩ := ha
    cases m with
    | ongoing k => exact ih hr k v
    | _ => exact .some ⟨rfl, hr, rfl⟩

theorem Alongside.map {μ ν : Type} (f : μ → ν) {x y : Option (μ × Cursor W α × W)}
    (h : Option.Rel (Alongside R) x y) :
    Option.Rel (Alongside R) (x.map fun (r, c, w) => (f r, c, w))
      (y.map fun (r, c, w) => (f r, c, w)) := by
  cases h with
  | none => exact .none
  | some h => exact .some ⟨congrArg f h.1, h.2⟩

theorem Lockstep.call (h : Lockstep R) (hr : R c d) (fuel : Nat) (w : W) (a : Call W) :
    Option.Rel (Alongside R) (c.call fuel w a) (d.call fuel w a) := by
  cases a with
  | step => exact Alongside.map _ (h.step hr fuel w)
  | advanceBy n => exact Alongside.map _ (h.advanceBy hr fuel n w)
  | meanwhile change => exact .some ⟨rfl, hr, rfl⟩

/-- Cursors in lockstep reply alike to all calls. -/
theorem Lockstep.replies (h : Lockstep R) (hr : R c d) (fuel : Nat) (w : W)
    (calls : List (Call W)) : c.replies fuel w calls = d.replies fuel w calls := by
  induction calls generalizing c d w with
  | nil => rfl
  | cons a calls ih =>
    have ha := h.call hr fuel w a
    rw [Cursor.replies, Cursor.replies]
    generalize c.call fuel w a = x at ha ⊢
    generalize d.call fuel w a = y at ha ⊢
    cases ha with
    | none => rfl
    | @some x y ha =>
      obtain ⟨r, c', v⟩ := x
      obtain ⟨r', d', v'⟩ := y
      obtain ⟨rfl : r = r', hr, rfl : v = v'⟩ := ha
      simp only [ih hr v]

end Cursor

/-- One session with a stream: it is opened, which may panic, and then called. -/
def Stream.replies (s : Stream W α) (fuel : Nat) (calls : List (Call W)) :
    Act W (Option (List (Except Panic (Reply α) × W))) :=
  s.cursor.andThen fun c => fun w => (.ok (c.replies fuel w calls), w)

section Opened

variable {β γ : Type} {s t : Stream W α} {inner : Stream W β}
  {around beside : Cursor W β → Cursor W α} {R : Cursor W α → Cursor W α → Prop}

/-- Two streams whose cursors stand around the cursors of one other stream are used alike when these
cursors are. -/
theorem Stream.used_eq {use : Cursor W α → Act W γ}
    (hu : ∀ {c w v}, inner.cursor w = (.ok c, v) → use (around c) v = use (beside c) v)
    (hs : s.cursor = inner.cursor.andThen fun c => Act.done (around c))
    (ht : t.cursor = inner.cursor.andThen fun c => Act.done (beside c)) :
    s.cursor.andThen use = t.cursor.andThen use := by
  funext w
  simp only [hs, ht, Act.andThen, Act.done]
  rcases hc : inner.cursor w with ⟨_ | c, v⟩
  · rfl
  · exact hu hc

/-- It is enough that the cursors are related that the other stream is opened to. -/
theorem Stream.replies_eq_of_opened (hl : Cursor.Lockstep R)
    (hr : ∀ {c w v}, inner.cursor w = (.ok c, v) → R (around c) (beside c))
    (hs : s.cursor = inner.cursor.andThen fun c => Act.done (around c))
    (ht : t.cursor = inner.cursor.andThen fun c => Act.done (beside c)) :
    s.replies = t.replies := by
  funext fuel calls
  exact used_eq (fun {c w v} ho => by rw [hl.replies (hr ho)]) hs ht

/-- Streams whose cursors stand around the cursors of one other stream cannot be told apart when
those are related. -/
theorem Stream.replies_eq (hl : Cursor.Lockstep R) (hr : ∀ c, R (around c) (beside c))
    (hs : s.cursor = inner.cursor.andThen fun c => Act.done (around c))
    (ht : t.cursor = inner.cursor.andThen fun c => Act.done (beside c)) :
    s.replies = t.replies :=
  replies_eq_of_opened hl (fun {c _ _} _ => hr c) hs ht

end Opened

end PullStream
