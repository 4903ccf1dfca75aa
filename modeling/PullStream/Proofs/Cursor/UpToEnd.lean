import PullStream.Proofs.Cursor.Asking
import PullStream.Proofs.Cursor.Ending

/-!
# Sessions up to the end

A supplier that is asked again behind its end may do anything there. So two cursors that come to
their end in different ways need not be alike behind it: one of them may have given up the supplier
that the other asks again. `answersToEnd` is what the holder of a cursor is told until the end has
been reported once, and there it is enough that the cursors go in lockstep until then. If what is
asked again rests, then behind the end nothing is left to tell them apart.
-/

set_option autoImplicit false

namespace PullStream

variable {W α : Type}

/-- The answer reports the end. -/
def Answer.ends : Answer α → Bool
  | .replied (.stepped .done) => true
  | .replied (.advanced false) => true
  | .element none => true
  | _ => false

namespace Cursor

def reportsEnd : Except Panic (Answer α) → Bool
  | .ok a => a.ends
  | .error _ => false

/-- The answers to queries made one after the other, up to the first that reports the end. The
queries behind it are not made. -/
def answersToEnd (fuel : Nat) (c : Cursor W α) (w : W) :
    List (Query W) → Option (List (Except Panic (Answer α) × W))
  | [] => some []
  | q :: qs =>
    match c.query fuel w q with
    | none => none
    | some (r, c, w) =>
      if reportsEnd r then some [(r, w)] else (c.answersToEnd fuel w qs).map ((r, w) :: ·)

/-- The same came of two moves or calls, in the same world, and unless it was the end, the cursors
they left are related. -/
def Until {μ : Type} (ended : μ → Prop) (R : Cursor W α → Cursor W α → Prop)
    (x y : μ × Cursor W α × W) : Prop :=
  x.1 = y.1 ∧ (ended x.1 ∨ R x.2.1 y.2.1) ∧ x.2.2 = y.2.2

/-- Related cursors make the same moves, and stay related until they have met the end. -/
structure LockstepToEnd (R : Cursor W α → Cursor W α → Prop) : Prop where
  tick : ∀ {c d}, R c d → ∀ w, Until (· = .done) R (c.tick w) (d.tick w)
  skip : ∀ {c d}, R c d → ∀ n w, Until (· = .finished false) R (c.skip n w) (d.skip n w)

variable {R : Cursor W α → Cursor W α → Prop} {c d : Cursor W α}

theorem Alongside.until {μ : Type} {ended : μ → Prop} {x y : μ × Cursor W α × W}
    (h : Alongside R x y) : Until ended R x y :=
  ⟨h.1, .inr h.2.1, h.2.2⟩

/-- Cursors that step over what they leave out only have to make the same moves. -/
theorem LockstepToEnd.of_tick (hj : ∀ {c d}, R c d → ¬ c.Jumps ∧ ¬ d.Jumps)
    (ht : ∀ {c d}, R c d → ∀ w, Until (· = .done) R (c.tick w) (d.tick w)) : LockstepToEnd R where
  tick := ht
  skip := by
    intro c d hr n w
    rw [skip_eq_skipBySteps (hj hr).1, skip_eq_skipBySteps (hj hr).2]
    cases n with
    | zero => exact ⟨rfl, .inr hr, rfl⟩
    | succ n =>
      have ha := ht hr w
      rcases hc : c.tick w with ⟨m, c', v⟩
      rcases hd : d.tick w with ⟨m', d', v'⟩
      rw [hc, hd] at ha
      obtain ⟨rfl : m = m', hm, rfl : v = v'⟩ := ha
      cases m with
      | done =>
        simp only [Moves.skipBySteps, hc, hd]
        exact ⟨rfl, .inl rfl, rfl⟩
      | _ =>
        simp only [Moves.skipBySteps, hc, hd]
        exact ⟨rfl, .inr (hm.resolve_left (by simp)), rfl⟩

theorem Until.map {μ ν : Type} {P : μ → Prop} {Q : ν → Prop} (f : μ → ν)
    (hf : ∀ m, P m → Q (f m)) {x y : Option (μ × Cursor W α × W)}
    (h : Option.Rel (Until P R) x y) :
    Option.Rel (Until Q R) (x.map fun (r, c, w) => (f r, c, w))
      (y.map fun (r, c, w) => (f r, c, w)) := by
  cases h with
  | none => exact .none
  | some h => exact .some ⟨congrArg f h.1, h.2.1.imp_left (hf _), h.2.2⟩

/-- Cursors whose end is final, before it and behind it. -/
def Onward (R : Cursor W α → Cursor W α → Prop) (c d : Cursor W α) : Prop :=
  R c d ∧ c.Firm ∧ d.Firm ∨ c.Ended ∧ d.Ended

namespace LockstepToEnd

theorem step (h : LockstepToEnd R) (hr : R c d) (fuel : Nat) (w : W) :
    Option.Rel (Until (· = .ok .done) R) (c.step fuel w) (d.step fuel w) := by
  induction fuel generalizing c d w with
  | zero => exact .none
  | succ fuel ih =>
    have ha := h.tick hr w
    rw [Cursor.step, Cursor.step]
    generalize c.tick w = x at ha ⊢
    generalize d.tick w = y at ha ⊢
    obtain ⟨m, c', v⟩ := x
    obtain ⟨m', d', v'⟩ := y
    obtain ⟨rfl : m = m', hm, rfl : v = v'⟩ := ha
    cases m with
    | silent => exact ih (hm.resolve_left (by simp)) v
    | done => exact .some ⟨rfl, .inl rfl, rfl⟩
    | _ => exact .some ⟨rfl, .inr (hm.resolve_left (by simp)), rfl⟩

theorem advanceBy (h : LockstepToEnd R) (hr : R c d) (fuel n : Nat) (w : W) :
    Option.Rel (Until (· = .ok false) R) (c.advanceBy fuel n w) (d.advanceBy fuel n w) := by
  induction fuel generalizing c d n w with
  | zero => exact .none
  | succ fuel ih =>
    have ha := h.skip hr n w
    rw [Cursor.advanceBy, Cursor.advanceBy]
    generalize c.skip n w = x at ha ⊢
    generalize d.skip n w = y at ha ⊢
    obtain ⟨m, c', v⟩ := x
    obtain ⟨m', d', v'⟩ := y
    obtain ⟨rfl : m = m', hm, rfl : v = v'⟩ := ha
    rcases m with k | (_ | _) | p
    · exact ih (hm.resolve_left (by simp)) k v
    · exact .some ⟨rfl, .inl rfl, rfl⟩
    · exact .some ⟨rfl, .inr (hm.resolve_left (by simp)), rfl⟩
    · exact .some ⟨rfl, .inr (hm.resolve_left (by simp)), rfl⟩

theorem next (h : LockstepToEnd R) (hr : R c d) (fuel : Nat) (w : W) :
    Option.Rel (Until (· = .ok none) R) (c.next fuel w) (d.next fuel w) :=
  Until.map _ (by rintro _ rfl; rfl) (h.step hr fuel w)

theorem nth (h : LockstepToEnd R) (hr : R c d) (fuel n : Nat) (w : W) :
    Option.Rel (Until (· = .ok none) R) (c.nth fuel n w) (d.nth fuel n w) := by
  have ha := h.advanceBy hr fuel n w
  rw [Cursor.nth, Cursor.nth]
  generalize c.advanceBy fuel n w = x at ha ⊢
  generalize d.advanceBy fuel n w = y at ha ⊢
  cases ha with
  | none => exact .none
  | @some x y ha =>
    obtain ⟨r, c', v⟩ := x
    obtain ⟨r', d', v'⟩ := y
    obtain ⟨rfl : r = r', hm, rfl : v = v'⟩ := ha
    rcases r with p | _ | _
    · exact .some ⟨rfl, .inr (hm.resolve_left (by simp)), rfl⟩
    · exact .some ⟨rfl, .inl rfl, rfl⟩
    · exact h.next (hm.resolve_left (by simp)) fuel v

theorem query (h : LockstepToEnd R) (hr : R c d) (fuel : Nat) (w : W) (q : Query W) :
    Option.Rel (Until (reportsEnd · = true) R) (c.query fuel w q) (d.query fuel w q) := by
  rcases q with (_ | n | change) | _ | n
  · exact Until.map _ (by rintro _ rfl; rfl)
      (Until.map (Q := (· = .ok (.stepped .done))) _ (by rintro _ rfl; rfl)
        (h.step hr fuel w))
  · exact Until.map _ (by rintro _ rfl; rfl)
      (Until.map (Q := (· = .ok (.advanced false))) _ (by rintro _ rfl; rfl)
        (h.advanceBy hr fuel n w))
  · exact .some ⟨rfl, .inr hr, rfl⟩
  · exact Until.map _ (by rintro _ rfl; rfl) (h.next hr fuel w)
  · exact Until.map _ (by rintro _ rfl; rfl) (h.nth hr fuel n w)

/-- Cursors that go in lockstep up to their end answer alike up to there. -/
theorem answersToEnd (h : LockstepToEnd R) (hr : R c d) (fuel : Nat) (w : W)
    (qs : List (Query W)) : c.answersToEnd fuel w qs = d.answersToEnd fuel w qs := by
  induction qs generalizing c d w with
  | nil => rfl
  | cons q qs ih =>
    have ha := h.query hr fuel w q
    rw [Cursor.answersToEnd, Cursor.answersToEnd]
    generalize c.query fuel w q = x at ha ⊢
    generalize d.query fuel w q = y at ha ⊢
    cases ha with
    | none => rfl
    | @some x y ha =>
      obtain ⟨r, c', v⟩ := x
      obtain ⟨r', d', v'⟩ := y
      obtain ⟨rfl : r = r', hm, rfl : v = v'⟩ := ha
      cases he : reportsEnd r with
      | true => simp only [he, if_true]
      | false => simp only [he, ih (hm.resolve_left (by simp [he])) v]

/-- What goes in lockstep up to an end that is final goes in lockstep for ever. -/
theorem onward (h : LockstepToEnd R) : Lockstep (Onward R) where
  tick := by
    rintro c d (⟨hr, hc, hd⟩ | ⟨hc, hd⟩) w
    · have ha := h.tick hr w
      rcases htc : c.tick w with ⟨m, c', v⟩
      rcases htd : d.tick w with ⟨m', d', v'⟩
      rw [htc, htd] at ha
      obtain ⟨rfl : m = m', hm, rfl : v = v'⟩ := ha
      refine ⟨rfl, ?_, rfl⟩
      rcases hm with rfl | hr
      · exact .inr ⟨hc.closes.tick htc, hd.closes.tick htd⟩
      · exact .inl ⟨hr, (becomes_of_tick htc).firm hc, (becomes_of_tick htd).firm hd⟩
    · rw [hc.tick, hd.tick]
      exact ⟨rfl, .inr ⟨hc, hd⟩, rfl⟩
  skip := by
    rintro c d (⟨hr, hc, hd⟩ | ⟨hc, hd⟩) n w
    · have ha := h.skip hr n w
      rcases hsc : c.skip n w with ⟨m, c', v⟩
      rcases hsd : d.skip n w with ⟨m', d', v'⟩
      rw [hsc, hsd] at ha
      obtain ⟨rfl : m = m', hm, rfl : v = v'⟩ := ha
      refine ⟨rfl, ?_, rfl⟩
      rcases hm with rfl | hr
      · exact .inr ⟨hc.closes.skip hsc, hd.closes.skip hsd⟩
      · exact .inl ⟨hr, (becomes_of_skip hsc).firm hc, (becomes_of_skip hsd).firm hd⟩
    · rw [hc.skip, hd.skip]
      exact ⟨rfl, .inr ⟨hc, hd⟩, rfl⟩

end LockstepToEnd

end Cursor

namespace Stream

/-- One session with a stream up to its end: it is opened, which may panic, and then asked. -/
def answersToEnd (s : Stream W α) (fuel : Nat) (qs : List (Query W)) :
    Act W (Option (List (Except Panic (Answer α) × W))) :=
  s.cursor.andThen fun c => fun w => (.ok (c.answersToEnd fuel w qs), w)

section Opened

variable {β : Type} {s t : Stream W α} {inner : Stream W β}
  {around beside : Cursor W β → Cursor W α} {R : Cursor W α → Cursor W α → Prop}

end Opened

end Stream

end PullStream
