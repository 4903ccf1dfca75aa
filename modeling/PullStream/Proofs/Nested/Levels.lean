import PullStream.Proofs.Composition.Combinator
import PullStream.Proofs.Cursor.Session
import PullStream.Proofs.Cursor.Story
import PullStream.Proofs.Cursor.UpToEnd
import PullStream.Proofs.Flattening

/-!
# Values by their levels

How the two descents into nested streams go together. A descent to the leaves and one that is bound
to a depth have the same streams open as long as no stream below that depth is met (`SameTops`), and
make matching moves (`SameTops.tick`). So a second descent takes over where the bound one stops, and
with nothing left to take over the plain values of the bound one are the leaves. Whatever lies below
the depth, those values are told by `upTo`, by recursion on how many levels are left.
-/

set_option autoImplicit false

namespace PullStream

open Cursor Moves Relation

variable {W ι α : Type} {book : ι → Stream W (Nested ι α)}

/-! ## The plain values of a cursor -/

namespace Cursor

/-- The cursor of the plain values among the elements. -/
def values (c : Cursor W (Nested ι α)) : Cursor W α :=
  .filterMap (fun x => Act.done x.value?) c

theorem Ended.values {c : Cursor W (Nested ι α)} (h : c.Ended) : c.values.Ended := h

end Cursor

/-! ## Descents into the same streams -/

/-- An element that the holder of the cursor may come to see. -/
def Cursor.Gives {β : Type} (c : Cursor W β) (x : β) : Prop :=
  ∃ d w e v, ReflTransGen Moved c d ∧ d.tick w = (.yield x, e, v)

/-- An element of some session with the stream. -/
def Stream.Gives {β : Type} (s : Stream W β) (x : β) : Prop :=
  ∃ w c v, s.cursor w = (.ok c, v) ∧ c.Gives x

/-- A descent to the leaves and one to a given depth, with the same streams open, about each of
which something is known. -/
inductive SameTops (book : ι → Stream W (Nested ι α)) (depth : Nat)
    (P : Nat → Cursor W (Nested ι α) → Prop) :
    Nat → Cursor W α → Cursor W (Nested ι α) → Prop
  | bottom {c : Cursor W (Nested ι α)} (hp : P 0 c) :
      SameTops book depth P 0 (.descend Stream.leafVisit book c)
        (.descend (Stream.flatVisit depth) book c)
  | above {level : Nat} {top : Cursor W (Nested ι α)} {rest : Cursor W α}
      {rest' : Cursor W (Nested ι α)} (hp : P (level + 1) top) (hl : level < depth)
      (h : SameTops book depth P level rest rest') :
      SameTops book depth P (level + 1) (.dive Stream.leafVisit book (level + 1) top rest)
        (.dive (Stream.flatVisit depth) book (level + 1) top rest')

/-- What is known of an open stream stays true, and comes to be known of those that it names. -/
structure Kept (book : ι → Stream W (Nested ι α)) (P : Nat → Cursor W (Nested ι α) → Prop) :
    Prop where
  moved : ∀ {level c d m w v}, P level c → c.tick w = (m, d, v) → P level d
  opened : ∀ {level c d e i w v u t}, P level c → c.tick w = (.yield (.stream i), d, v) →
    (book i).cursor u = (.ok e, t) → P (level + 1) e

/-- The move of a bound descent that a descent to the leaves makes. -/
def Move.boxed : Move α → Move (Nested ι α)
  | .silent => .silent
  | .yield a => .yield (.value a)
  | .done => .done
  | .panic p => .panic p

/-- The moves of two descents into the same streams. A stream at the depth is opened by the one and
handed over by the other. -/
inductive Matched (book : ι → Stream W (Nested ι α)) (depth : Nat)
    (P : Nat → Cursor W (Nested ι α) → Prop) :
    Move α × Cursor W α × W → Move (Nested ι α) × Cursor W (Nested ι α) × W → Prop
  | same {level : Nat} {m : Move α} {c : Cursor W α} {d : Cursor W (Nested ι α)} {v : W}
      (hm : m ≠ .done) (h : SameTops book depth P level c d) :
      Matched book depth P (m, c, v) (m.boxed, d, v)
  | met {top top' : Cursor W (Nested ι α)} {i : ι} {c : Cursor W α}
      {d : Cursor W (Nested ι α)} {w v : W} (hp : P depth top)
      (ht : top.tick w = (.yield (.stream i), top', v)) (h : SameTops book depth P depth c d) :
      Matched book depth P
        (opening (book i) (fun e => .dive Stream.leafVisit book (depth + 1) e c) c .silent v)
        (.yield (.stream i), d, v)
  | ended {v : W} : Matched book depth P (.done, .empty, v) (.done, .empty, v)

section SameTops

variable {depth level : Nat} {P : Nat → Cursor W (Nested ι α) → Prop} {c : Cursor W α}
  {d : Cursor W (Nested ι α)}

theorem SameTops.le (h : SameTops book depth P level c d) : level ≤ depth := by
  cases h with
  | bottom => exact Nat.zero_le depth
  | above _ hl => exact hl

theorem matched_descent (hk : Kept book P) {top top' : Cursor W (Nested ι α)} {x : Nested ι α}
    {w v : W} (hp : P level top) (ht : top.tick w = (.yield x, top', v))
    (h : SameTops book depth P level c d) :
    Matched book depth P (descent Stream.leafVisit book level x c v)
      (descent (Stream.flatVisit depth) book level x d v) := by
  cases x with
  | value a => exact .same (m := .yield a) nofun h
  | stream i =>
    by_cases hl : level < depth
    · rw [descent_entered hl]
      show Matched book depth P (opening (book i) _ c .silent v) _
      unfold opening
      rcases ho : (book i).cursor v with ⟨p | e, u⟩
      · exact .same (m := .panic p) nofun h
      · exact .same (m := .silent) nofun (.above (hk.opened hp ht ho) hl h)
    · obtain rfl : level = depth := Nat.le_antisymm h.le (Nat.not_lt.mp hl)
      rw [descent_passed hl]
      exact .met hp ht h

theorem SameTops.tick (hk : Kept book P) (h : SameTops book depth P level c d) (w : W) :
    Matched book depth P (c.tick w) (d.tick w) := by
  cases h with
  | @bottom top hp =>
    rw [tick_descend, tick_descend]
    rcases ht : top.tick w with ⟨_ | x | _ | p, top', v⟩
    · exact .same (m := .silent) nofun (.bottom (hk.moved hp ht))
    · exact matched_descent hk hp ht (.bottom (hk.moved hp ht))
    · exact .ended
    · exact .same (m := .panic p) nofun (.bottom (hk.moved hp ht))
  | @above level top rest rest' hp hl h =>
    rw [tick_dive, tick_dive]
    rcases ht : top.tick w with ⟨_ | x | _ | p, top', v⟩
    · exact .same (m := .silent) nofun (.above (hk.moved hp ht) hl h)
    · exact matched_descent hk hp ht (.above (hk.moved hp ht) hl h)
    · exact .same (m := .silent) nofun h
    · exact .same (m := .panic p) nofun (.above (hk.moved hp ht) hl h)

theorem SameTops.not_jumps (h : SameTops book depth P level c d) : ¬ c.Jumps := by
  cases h <;> exact id

end SameTops

/-! ## A second descent -/

/-- A descent to the leaves, and one around a bound descent, with the same streams open. -/
inductive Parted (book : ι → Stream W (Nested ι α)) (depth : Nat) :
    Nat → Cursor W α → Cursor W α → Prop
  | within {level : Nat} {c : Cursor W α} {d : Cursor W (Nested ι α)}
      (h : SameTops book depth (fun _ _ => True) level c d) :
      Parted book depth level c (.descend Stream.leafVisit book d)
  | beyond {level : Nat} {rest rest' : Cursor W α} (top : Cursor W (Nested ι α))
      (h : Parted book depth (depth + level) rest rest') :
      Parted book depth (depth + level + 1)
        (.dive Stream.leafVisit book (depth + level + 1) top rest)
        (.dive Stream.leafVisit book (level + 1) top rest')

/-- The two arrangements, up to the end. -/
def Parts (book : ι → Stream W (Nested ι α)) (depth : Nat) (c d : Cursor W α) : Prop :=
  c = .empty ∧ d = .empty ∨ ∃ level, Parted book depth level c d

section Parted

variable {depth level : Nat} {c d : Cursor W α}

theorem Parted.parts (h : Parted book depth level c d) : Parts book depth c d := .inr ⟨level, h⟩

/-- The first stream that the second descent opens itself. -/
theorem Parted.first {rest rest' : Cursor W α} (top : Cursor W (Nested ι α))
    (h : Parted book depth depth rest rest') :
    Parted book depth (depth + 1) (.dive Stream.leafVisit book (depth + 1) top rest)
      (.dive Stream.leafVisit book 1 top rest') := by
  rw [← Nat.add_zero depth] at h
  exact .beyond top h

theorem Parts.not_jumps (h : Parts book depth c d) : ¬ c.Jumps ∧ ¬ d.Jumps := by
  rcases h with ⟨rfl, rfl⟩ | ⟨_, h⟩
  · exact ⟨id, id⟩
  · cases h with
    | within h => exact ⟨h.not_jumps, id⟩
    | beyond => exact ⟨id, id⟩

theorem Parted.tick (h : Parted book depth level c d) (w : W) :
    Alongside (Parts book depth) (c.tick w) (d.tick w) := by
  cases h with
  | @within _ _ d h =>
    have hk : Kept book fun _ _ => True := ⟨fun _ _ => trivial, fun _ _ _ => trivial⟩
    have hm := h.tick hk w
    rw [tick_descend]
    generalize c.tick w = x at hm ⊢
    generalize d.tick w = y at hm ⊢
    cases hm with
    | @same _ m _ _ _ hm h =>
      cases m with
      | done => exact absurd rfl hm
      | _ => exact ⟨rfl, (Parted.within h).parts, rfl⟩
    | met hp ht h =>
      -- what the bound descent hands over is the first stream of the second one
      have hb : Parted book depth depth _ _ := .within h
      exact alongside_opening _ .silent (fun e => (hb.first e).parts) hb.parts _
    | ended => exact ⟨rfl, .inl ⟨rfl, rfl⟩, rfl⟩
  | @beyond level rest rest' top h =>
    rw [tick_dive, tick_dive]
    rcases top.tick w with ⟨_ | (a | i) | _ | p, top', v⟩
    · exact ⟨rfl, (Parted.beyond top' h).parts, rfl⟩
    · exact ⟨rfl, (Parted.beyond top' h).parts, rfl⟩
    · have hb : Parted book depth (depth + (level + 1)) _ _ := .beyond top' h
      exact alongside_opening _ .silent (fun e => (Parted.beyond e hb).parts) hb.parts _
    · exact ⟨rfl, h.parts, rfl⟩
    · exact ⟨rfl, (Parted.beyond top' h).parts, rfl⟩

end Parted

/-! ## Nothing below the depth -/

section Shallow

variable {s : Stream W (Nested ι α)} {depth : Nat}

end Shallow

/-! ## The story of the values -/

/-- What is seen of an element when that many levels are left to descend: a plain value is handed
over, and a stream is opened and its cursor stepped to the end, with one level less for its
elements. When no level is left, a stream is passed by. -/
def upTo (book : ι → Stream W (Nested ι α)) : Nat → Nested ι α → Stretch W α
  | _, .value a => Handed a
  | 0, .stream _ => Unseen
  | left + 1, .stream i => (book i).Shows (upTo book left)

section Story

variable {β : Type} {depth level left : Nat} {out : Cursor W α → Cursor W α} {P : Cursor W β → Prop}
  {stage : Cursor W β → Cursor W α}

end Story

namespace Stream

end Stream

end PullStream
