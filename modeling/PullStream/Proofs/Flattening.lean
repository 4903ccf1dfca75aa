import PullStream.Nested
import PullStream.Proofs.Cursor.Lockstep
import PullStream.Proofs.Descent

/-!
# Flattening in two stages

To flatten by `a` levels and the result by `b` more is to flatten by `a + b` levels at once. The one
stack of open streams falls into two at level `a`: up to there they are open inside the cursor that
the second stage drains, and those above are its own. `Split` is this correspondence. Each stream is
on one side only, so every move of either arrangement is one move of the other.
-/

set_option autoImplicit false

namespace PullStream

open Cursor Moves

variable {W ι α : Type} {book : ι → Stream W (Nested ι α)} {a b : Nat}

/-- Two descents into the same open streams; the last of them is at the given level. -/
inductive SameStreams (book : ι → Stream W (Nested ι α)) (a b : Nat) :
    Nat → Cursor W (Nested ι α) → Cursor W (Nested ι α) → Prop
  | bottom (c : Cursor W (Nested ι α)) :
      SameStreams book a b 0 (.descend (Stream.flatVisit a) book c)
        (.descend (Stream.flatVisit b) book c)
  | above {level : Nat} {rest rest' : Cursor W (Nested ι α)} (top : Cursor W (Nested ι α))
      (h : SameStreams book a b level rest rest') :
      SameStreams book a b (level + 1) (.dive (Stream.flatVisit a) book (level + 1) top rest)
        (.dive (Stream.flatVisit b) book (level + 1) top rest')

/-- A descent by `a + b` levels, and one by `b` levels around one by `a` levels, with the same
streams open. -/
inductive Split (book : ι → Stream W (Nested ι α)) (a b : Nat) :
    Nat → Cursor W (Nested ι α) → Cursor W (Nested ι α) → Prop
  | within {level : Nat} {c d : Cursor W (Nested ι α)} (h : SameStreams book (a + b) a level c d)
      (hl : level ≤ a) : Split book a b level c (.descend (Stream.flatVisit b) book d)
  | beyond {level : Nat} {rest rest' : Cursor W (Nested ι α)} (top : Cursor W (Nested ι α))
      (h : Split book a b (a + level) rest rest') :
      Split book a b (a + level + 1)
        (.dive (Stream.flatVisit (a + b)) book (a + level + 1) top rest)
        (.dive (Stream.flatVisit b) book (level + 1) top rest')

def Splits (book : ι → Stream W (Nested ι α)) (a b : Nat) (c d : Cursor W (Nested ι α)) : Prop :=
  c = .empty ∧ d = .empty ∨ ∃ level, Split book a b level c d

/-- The first stream that the second stage opens itself. -/
theorem Split.first {rest rest' : Cursor W (Nested ι α)} (top : Cursor W (Nested ι α))
    (h : Split book a b a rest rest') :
    Split book a b (a + 1) (.dive (Stream.flatVisit (a + b)) book (a + 1) top rest)
      (.dive (Stream.flatVisit b) book 1 top rest') := by
  rw [← Nat.add_zero a] at h
  exact .beyond top h

theorem Split.splits {level : Nat} {c d : Cursor W (Nested ι α)} (h : Split book a b level c d) :
    Splits book a b c d := .inr ⟨level, h⟩

theorem SameStreams.not_jumps {level : Nat} {c d : Cursor W (Nested ι α)}
    (h : SameStreams book a b level c d) : ¬ c.Jumps := by
  cases h <;> exact id

theorem Splits.not_jumps {c d : Cursor W (Nested ι α)} (h : Splits book a b c d) :
    ¬ c.Jumps ∧ ¬ d.Jumps := by
  rcases h with ⟨rfl, rfl⟩ | ⟨_, h⟩
  · exact ⟨id, id⟩
  · cases h with
    | within h => exact ⟨h.not_jumps, id⟩
    | beyond => exact ⟨id, id⟩

section Visits

variable {depth level : Nat} {rest : Cursor W (Nested ι α)} {w : W}

theorem descent_entered (h : level < depth) (i : ι) :
    descent (Stream.flatVisit depth) book level (.stream i) rest w =
      opening (book i) (fun c => .dive (Stream.flatVisit depth) book (level + 1) c rest) rest
        .silent w := by
  simp only [descent, Stream.flatVisit, Act.done, h, if_true]

theorem descent_passed (h : ¬ level < depth) (i : ι) :
    descent (Stream.flatVisit depth) book level (.stream i) rest w =
      (.yield (.stream i), rest, w) := by
  simp only [descent, Stream.flatVisit, Act.done, h, if_false]

end Visits

/-- A stream opened on both sides, or lost on both sides to the same panic. -/
theorem alongside_opening {R : Cursor W α → Cursor W α → Prop} {β : Type} (s : Stream W β)
    {opened opened' : Cursor W β → Cursor W α} {lost lost' : Cursor W α} (m : Move α)
    (ho : ∀ c, R (opened c) (opened' c)) (hl : R lost lost') (w : W) :
    Alongside R (opening s opened lost m w) (opening s opened' lost' m w) := by
  unfold opening
  rcases s.cursor w with ⟨_ | c, v⟩
  · exact ⟨rfl, hl, rfl⟩
  · exact ⟨rfl, ho c, rfl⟩

/-- What the second stage makes of a move of the first one. -/
def staged (book : ι → Stream W (Nested ι α)) (b : Nat) :
    Move (Nested ι α) × Cursor W (Nested ι α) × W → Move (Nested ι α) × Cursor W (Nested ι α) × W :=
  draining (Stream.flatVisit b) book 0 (.descend (Stream.flatVisit b) book)
    fun w => (.done, .empty, w)

theorem alongside_within (hb : 0 < b) {level : Nat} {c d : Cursor W (Nested ι α)}
    (h : SameStreams book (a + b) a level c d) (hl : level ≤ a) (x : Nested ι α) (w : W) :
    Alongside (Splits book a b) (descent (Stream.flatVisit (a + b)) book level x c w)
      (staged book b (descent (Stream.flatVisit a) book level x d w)) := by
  have hs : Splits book a b c (.descend (Stream.flatVisit b) book d) := (Split.within h hl).splits
  cases x with
  | value x => exact ⟨rfl, hs, rfl⟩
  | stream i =>
    by_cases hlt : level < a
    · rw [descent_entered (by omega), descent_entered hlt]
      unfold opening
      rcases (book i).cursor w with ⟨_ | e, v⟩
      · exact ⟨rfl, hs, rfl⟩
      · exact ⟨rfl, (Split.within (.above e h) hlt).splits, rfl⟩
    · -- the first stage passes the stream on, and the second one opens it
      obtain rfl : level = a := by omega
      rw [descent_entered (by omega), descent_passed hlt]
      show Alongside _ _ (descent (Stream.flatVisit b) book 0 (.stream i) _ w)
      rw [descent_entered hb]
      exact alongside_opening (book i) .silent
        (fun e => (Split.first e (.within h hl)).splits) hs w

theorem alongside_beyond {level : Nat} {c d : Cursor W (Nested ι α)}
    (h : Split book a b (a + level) c d) (x : Nested ι α) (w : W) :
    Alongside (Splits book a b) (descent (Stream.flatVisit (a + b)) book (a + level) x c w)
      (descent (Stream.flatVisit b) book level x d w) := by
  cases x with
  | value x => exact ⟨rfl, h.splits, rfl⟩
  | stream i =>
    by_cases hlt : level < b
    · rw [descent_entered (by omega), descent_entered hlt]
      exact alongside_opening (book i) .silent (fun e => (Split.beyond e h).splits) h.splits w
    · rw [descent_passed (by omega), descent_passed hlt]
      exact ⟨rfl, h.splits, rfl⟩

theorem Split.tick (hb : 0 < b) {level : Nat} {c d : Cursor W (Nested ι α)}
    (h : Split book a b level c d) (w : W) :
    Alongside (Splits book a b) (c.tick w) (d.tick w) := by
  cases h with
  | within h hl =>
    cases h with
    | bottom c =>
      show Alongside _ _ (staged book b ((descend (Stream.flatVisit a) book c).tick w))
      rw [tick_descend, tick_descend]
      rcases c.tick w with ⟨_ | x | _ | p, c', v⟩
      · exact ⟨rfl, (Split.within (.bottom c') hl).splits, rfl⟩
      · exact alongside_within hb (.bottom c') hl x v
      · exact ⟨rfl, .inl ⟨rfl, rfl⟩, rfl⟩
      · exact ⟨rfl, (Split.within (.bottom c') hl).splits, rfl⟩
    | @above level rest rest' top h =>
      show Alongside _ _
        (staged book b ((dive (Stream.flatVisit a) book (level + 1) top rest').tick w))
      rw [tick_dive, tick_dive]
      rcases top.tick w with ⟨_ | x | _ | p, top', v⟩
      · exact ⟨rfl, (Split.within (.above top' h) hl).splits, rfl⟩
      · exact alongside_within hb (.above top' h) hl x v
      · exact ⟨rfl, (Split.within h (by omega)).splits, rfl⟩
      · exact ⟨rfl, (Split.within (.above top' h) hl).splits, rfl⟩
  | @beyond level rest rest' top h =>
    rw [tick_dive, tick_dive]
    rcases top.tick w with ⟨_ | x | _ | p, top', v⟩
    · exact ⟨rfl, (Split.beyond top' h).splits, rfl⟩
    · have hs : Split book a b (a + (level + 1)) _ _ := .beyond top' h
      exact alongside_beyond hs x v
    · exact ⟨rfl, h.splits, rfl⟩
    · exact ⟨rfl, (Split.beyond top' h).splits, rfl⟩

theorem lockstep_splits (hb : 0 < b) : Lockstep (Splits book a b) := by
  apply Lockstep.of_tick fun h => Splits.not_jumps h
  rintro c d (⟨rfl, rfl⟩ | ⟨level, h⟩) w
  · exact ⟨rfl, .inl ⟨rfl, rfl⟩, rfl⟩
  · exact h.tick hb w

namespace Stream

theorem flat_of_knownEmpty {s : Stream W (Nested ι α)} (h : s.knownEmpty = true) (depth : Nat) :
    s.flat book depth = s := by
  cases s with
  | empty =>
    unfold flat
    split <;> rfl
  | _ => cases h

theorem flat_succ {s : Stream W (Nested ι α)} (h : s.knownEmpty = false) (depth : Nat) :
    s.flat book (depth + 1) = .descending (flatVisit (depth + 1)) book s := by
  simp [flat, h]

/-- No session tells flattening in two stages from flattening at once: with any calls in any worlds
both open and pull the same streams in the same order, yield the same elements and the same
unflattened streams, and go on alike after the same panics. To flatten by no level is to leave the
stream as it is. -/
theorem flat_in_two_stages (book : ι → Stream W (Nested ι α)) (s : Stream W (Nested ι α))
    (a b : Nat) :
    ((s.flat book a).flat book b).replies = (s.flat book (a + b)).replies ∧ s.flat book 0 = s := by
  refine ⟨?_, rfl⟩
  cases hs : s.knownEmpty with
  | true => simp only [flat_of_knownEmpty hs]
  | false =>
    cases a with
    | zero => rw [flat_zero, Nat.zero_add]
    | succ a =>
      cases b with
      | zero => rw [flat_zero, Nat.add_zero]
      | succ b =>
        have hc : (s.flat book (a + 1 + (b + 1))).cursor = s.cursor.andThen fun c =>
            Act.done (.descend (flatVisit (a + 1 + (b + 1))) book c) := by
          rw [show a + 1 + (b + 1) = a + 1 + b + 1 from rfl, flat_succ hs]
          rfl
        have hd : ((s.flat book (a + 1)).flat book (b + 1)).cursor = s.cursor.andThen fun c =>
            Act.done (.descend (flatVisit (b + 1)) book (.descend (flatVisit (a + 1)) book c)) := by
          rw [flat_succ hs, flat_succ rfl]
          exact Act.andThen_assoc _ _ _
        have hr : ∀ c, Splits book (a + 1) (b + 1) (.descend (flatVisit (a + 1 + (b + 1))) book c)
            (.descend (flatVisit (b + 1)) book (.descend (flatVisit (a + 1)) book c)) :=
          fun c => (Split.within (.bottom c) (Nat.zero_le _)).splits
        exact (replies_eq (lockstep_splits (Nat.succ_pos b)) hr hc hd).symm

end Stream

end PullStream
