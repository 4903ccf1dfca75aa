import PullStream.Proofs.Cursor.Advance
import PullStream.Proofs.Cursor.Lockstep
import PullStream.Proofs.Cursor.Session

/-!
# Sessions step by step

Whatever its holder calls, a cursor is stepped. `Walks` lists the steps, each with the world that it
starts in and the world that it leaves, and `Made` says which replies to which calls they amount to,
without any cursor. So what is to be said of all calls on a cursor can be said of its steps alone.
-/

set_option autoImplicit false

namespace PullStream

/-- One whole step, as the one who makes it sees it. -/
structure Pace (W α : Type) where
  before : W
  outcome : Except Panic (Step α)
  after : W

namespace Pace

variable {W α : Type}

/-- The step reported the end. A step that did not has yielded an element or panicked. -/
def ended : Pace W α → Bool
  | ⟨_, .ok .done, _⟩ => true
  | _ => false

/-- The element that a step yielded. -/
def element : Pace W α → Option α
  | ⟨_, .ok (.yield a), _⟩ => some a
  | _ => none

/-- The end is reported, and nothing else is done. -/
def Idle (x : Pace W α) : Prop := x.ended ∧ x.after = x.before

end Pace

variable {W α : Type}

/-- The steps of which it consists to leave out the next `n` elements. -/
inductive Passed : Nat → W → List (Pace W α) → Except Panic Bool → W → Prop
  | enough {w : W} : Passed 0 w [] (.ok true) w
  | more {n : Nat} {a : α} {w v u : W} {l : List (Pace W α)} {r : Except Panic Bool}
      (h : Passed n v l r u) : Passed (n + 1) w (⟨w, .ok (.yield a), v⟩ :: l) r u
  | short {n : Nat} {w v : W} : Passed (n + 1) w [⟨w, .ok .done, v⟩] (.ok false) v
  | panicked {n : Nat} {p : Panic} {w v : W} : Passed (n + 1) w [⟨w, .error p, v⟩] (.error p) v

/-- The replies that calls get, and the steps of which they consist. -/
inductive Made : W → List (Call W) → List (Pace W α) → List (Except Panic (Reply α) × W) → Prop
  | nil {w : W} : Made w [] [] []
  | step {w v : W} {x : Except Panic (Step α)} {calls : List (Call W)} {l : List (Pace W α)}
      {rs : List (Except Panic (Reply α) × W)} (h : Made v calls l rs) :
      Made w (.step :: calls) (⟨w, x, v⟩ :: l) ((x.map .stepped, v) :: rs)
  | advanceBy {n : Nat} {w v : W} {r : Except Panic Bool} {calls : List (Call W)}
      {m l : List (Pace W α)} {rs : List (Except Panic (Reply α) × W)} (hm : Passed n w m r v)
      (h : Made v calls l rs) :
      Made w (.advanceBy n :: calls) (m ++ l) ((r.map .advanced, v) :: rs)
  | meanwhile {change : W → W} {w : W} {calls : List (Call W)} {l : List (Pace W α)}
      {rs : List (Except Panic (Reply α) × W)} (h : Made (change w) calls l rs) :
      Made w (.meanwhile change :: calls) l ((.ok .waited, change w) :: rs)

namespace Cursor

open Relation

/-- Whole steps, made in whatever worlds they were made in, lead from one cursor to the other. -/
inductive Walks : Cursor W α → List (Pace W α) → Cursor W α → Prop
  | nil {c : Cursor W α} : Walks c [] c
  | cons {c d e : Cursor W α} {x : Pace W α} {l : List (Pace W α)}
      (hs : Settles (c.step · x.before) (x.outcome, d, x.after)) (h : Walks d l e) :
      Walks c (x :: l) e

variable {c d e : Cursor W α} {w v : W} {l m : List (Pace W α)}

theorem Walks.append (hl : c.Walks l d) (hm : d.Walks m e) : c.Walks (l ++ m) e := by
  induction hl with
  | nil => exact hm
  | cons hs _ ih => exact .cons hs (ih hm)

theorem walks_append_iff : c.Walks (l ++ m) e ↔ ∃ d, c.Walks l d ∧ d.Walks m e := by
  constructor
  · intro h
    induction l generalizing c with
    | nil => exact ⟨c, .nil, h⟩
    | cons x l ih =>
      cases h with
      | cons hs h =>
        obtain ⟨d, hl, hm⟩ := ih h
        exact ⟨d, .cons hs hl, hm⟩
  · rintro ⟨d, hl, hm⟩
    exact hl.append hm

theorem Walks.becomes (h : c.Walks l d) : ReflTransGen Becomes c d := by
  induction h with
  | nil => exact .refl
  | cons hs _ ih =>
    obtain ⟨fuel, hs⟩ := hs.comes
    have hb := becomes_of_moved (moved_of_step hs)
    exact hb.trans ih

theorem Walks.strides (h : c.Walks l d) (hc : c.Strides) : d.Strides :=
  keeps_of_becomes (P := Strides) Becomes.strides h.becomes hc

theorem Walks.inBounds (h : c.Walks l d) (hc : c.InBounds) : d.InBounds :=
  keeps_of_becomes (P := InBounds) Becomes.inBounds h.becomes hc

theorem Walks.firm (h : c.Walks l d) (hc : c.Firm) : d.Firm :=
  keeps_of_becomes (P := Firm) Becomes.firm h.becomes hc

/-! ## Leaving out elements -/

theorem Crosses.passed {n : Nat} {r : Except Panic Bool} (h : Crosses c n w (r, d, v)) :
    ∃ l, c.Walks l d ∧ Passed n w l r v := by
  induction n generalizing c w with
  | zero =>
    cases h
    exact ⟨[], .nil, .enough⟩
  | succ n ih =>
    rcases h.first_step with ⟨a, e, u, hs, h⟩ | ⟨e, u, hs, h⟩ | ⟨p, e, u, hs, h⟩
    · obtain ⟨l, hl, hp⟩ := ih h
      exact ⟨⟨w, .ok (.yield a), u⟩ :: l, .cons hs hl, .more hp⟩
    · cases h
      exact ⟨[⟨w, .ok .done, v⟩], .cons hs .nil, .short⟩
    · cases h
      exact ⟨[⟨w, .error p, v⟩], .cons hs .nil, .panicked⟩

theorem Walks.crosses {n : Nat} {r : Except Panic Bool} (h : c.Walks l d)
    (hp : Passed n w l r v) : Crosses c n w (r, d, v) := by
  induction hp generalizing c with
  | enough =>
    cases h
    exact .here
  | more _ ih =>
    cases h with
    | cons hs h =>
      obtain ⟨fuel, hs⟩ := hs.comes
      exact crosses_of_step_yield hs (ih h)
  | short =>
    cases h with
    | cons hs h =>
      cases h
      obtain ⟨fuel, hs⟩ := hs.comes
      exact crosses_of_step_done hs
  | panicked =>
    cases h with
    | cons hs h =>
      cases h
      obtain ⟨fuel, hs⟩ := hs.comes
      exact crosses_of_step_panic hs

/-! ## Calls -/

/-- A call that came back has made whole steps, and the calls behind it make the steps behind. -/
theorem walks_of_replies (hs : c.Strides) (hb : c.InBounds) {calls : List (Call W)}
    {rs : List (Except Panic (Reply α) × W)} {fuel : Nat}
    (h : c.replies fuel w calls = some rs) : ∃ l d, c.Walks l d ∧ Made w calls l rs := by
  induction calls generalizing c w rs with
  | nil =>
    cases h
    exact ⟨[], c, .nil, .nil⟩
  | cons a calls ih =>
    rw [replies] at h
    cases a with
    | step =>
      rcases hc : c.step fuel w with _ | ⟨x, d, v⟩ <;> simp only [call, hc, Option.map] at h
      · cases h
      · obtain ⟨rs, hr, rfl⟩ := Option.map_eq_some_iff.mp h
        have hw : c.Walks [⟨w, x, v⟩] d := .cons (settles_of_step hc) .nil
        obtain ⟨l, e, hl, hm⟩ := ih (hw.strides hs) (hw.inBounds hb) hr
        exact ⟨_, e, hw.append hl, .step hm⟩
    | advanceBy n =>
      rcases hc : c.advanceBy fuel n w with _ | ⟨x, d, v⟩ <;> simp only [call, hc, Option.map] at h
      · cases h
      · obtain ⟨rs, hr, rfl⟩ := Option.map_eq_some_iff.mp h
        obtain ⟨m, hw, hp⟩ := (crosses_of_advanceBy hs hb hc).passed
        obtain ⟨l, e, hl, hm⟩ := ih (hw.strides hs) (hw.inBounds hb) hr
        exact ⟨_, e, hw.append hl, .advanceBy hp hm⟩
    | meanwhile change =>
      obtain ⟨rs, hr, rfl⟩ := Option.map_eq_some_iff.mp h
      obtain ⟨l, e, hl, hm⟩ := ih hs hb hr
      exact ⟨l, e, hl, .meanwhile hm⟩

theorem Walks.settles_replies (h : c.Walks l d) (hs : c.Strides) (hb : c.InBounds)
    {calls : List (Call W)} {rs : List (Except Panic (Reply α) × W)} (hm : Made w calls l rs) :
    Settles (c.replies · w calls) rs := by
  induction hm generalizing c with
  | nil => exact settles_of_first fun _ => rfl
  | @step w v x calls l rs _ ih =>
    cases h with
    | @cons _ e _ _ _ hx h =>
      have hw : c.Walks [⟨w, x, v⟩] e := .cons hx .nil
      have hr := (ih h (hw.strides hs) (hw.inBounds hb)).map ((x.map Reply.stepped, v) :: ·)
      exact settles_of_both hr hx fun fuel hr hc => by simp only [replies, call, hc]; exact hr
  | @advanceBy n w v r calls m l rs hp _ ih =>
    obtain ⟨e, hw, h⟩ := walks_append_iff.mp h
    have ha := (hw.crosses hp).settles_advanceBy hs hb
    have hr := (ih h (hw.strides hs) (hw.inBounds hb)).map ((r.map Reply.advanced, v) :: ·)
    exact settles_of_both hr ha fun fuel hr hc => by simp only [replies, call, hc]; exact hr
  | @meanwhile change w calls l rs _ ih =>
    exact (ih h hs hb).map ((.ok .waited, change w) :: ·)

/-- All calls on a cursor are its steps, one after the other. -/
theorem settles_replies_iff (hs : c.Strides) (hb : c.InBounds) (w : W) (calls : List (Call W))
    (rs : List (Except Panic (Reply α) × W)) :
    Settles (c.replies · w calls) rs ↔ ∃ l d, c.Walks l d ∧ Made w calls l rs := by
  constructor
  · intro h
    obtain ⟨fuel, h⟩ := h.comes
    exact walks_of_replies hs hb h
  · rintro ⟨l, d, h, hm⟩
    exact h.settles_replies hs hb hm

end Cursor

end PullStream
