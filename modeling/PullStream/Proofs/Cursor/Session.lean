import PullStream.Proofs.Cursor.Resting
import PullStream.Tree
import Mathlib.Logic.Relation

/-!
# Sessions

The states that the holder of a cursor can bring it to. Between two calls the world may change in
any way, since other activities run in it, and a call may end in a panic that the holder catches.
-/

set_option autoImplicit false

namespace PullStream

open Relation

variable {W α ν : Type}

namespace Cursor

/-- The second cursor is what some calls made the first one. -/
inductive Later (c : Cursor W α) : Cursor W α → Prop
  | same : Later c c
  | step {d e : Cursor W α} {fuel : Nat} {r : Except Panic (Step α)} {w w' : W} (h : Later c d)
      (hs : d.step fuel w = some (r, e, w')) : Later c e
  | advanceBy {d e : Cursor W α} {fuel n : Nat} {r : Except Panic Bool} {w w' : W} (h : Later c d)
      (hs : d.advanceBy fuel n w = some (r, e, w')) : Later c e

/-- The second cursor is what one move made the first one. -/
def Moved (c d : Cursor W α) : Prop :=
  (∃ w m v, c.tick w = (m, d, v)) ∨ ∃ n w r v, c.skip n w = (r, d, v)

theorem Moved.becomes {c d : Cursor W α} (h : c.Moved d) : c.Becomes d := by
  rcases h with ⟨_, _, _, ht⟩ | ⟨_, _, _, _, hs⟩
  · exact becomes_of_tick ht
  · exact becomes_of_skip hs

theorem becomes_of_moved {c d : Cursor W α} (h : ReflTransGen Moved c d) :
    ReflTransGen Becomes c d :=
  ReflTransGen.mono (fun _ _ => Moved.becomes) _ _ h

theorem moved_of_step {c d : Cursor W α} {fuel : Nat} {r : Except Panic (Step α)} {w w' : W}
    (h : c.step fuel w = some (r, d, w')) : ReflTransGen Moved c d := by
  induction fuel generalizing c w with
  | zero => cases h
  | succ fuel ih =>
    rw [step] at h
    rcases ht : c.tick w with ⟨_ | a | _ | p, e, v⟩ <;> rw [ht] at h
    · exact .head (.inl ⟨w, _, v, ht⟩) (ih h)
    all_goals
      cases h
      exact .single (.inl ⟨w, _, _, ht⟩)

theorem moved_of_advanceBy {c d : Cursor W α} {fuel n : Nat} {r : Except Panic Bool} {w w' : W}
    (h : c.advanceBy fuel n w = some (r, d, w')) : ReflTransGen Moved c d := by
  induction fuel generalizing c n w with
  | zero => cases h
  | succ fuel ih =>
    rw [advanceBy] at h
    rcases hs : c.skip n w with ⟨m | b | p, e, v⟩ <;> rw [hs] at h
    · exact .head (.inr ⟨n, w, _, v, hs⟩) (ih h)
    all_goals
      cases h
      exact .single (.inr ⟨n, w, _, _, hs⟩)

/-- What single moves keep, calls keep. -/
theorem keeps_of_becomes {P : Cursor W α → Prop} (hb : ∀ {c d}, Becomes c d → P c → P d)
    {c d : Cursor W α} (h : ReflTransGen Becomes c d) (hc : P c) : P d := by
  induction h with
  | refl => exact hc
  | tail _ hd ih => exact hb hd ih

theorem moved_empty {d : Cursor W α} (h : ReflTransGen Moved .empty d) : d = .empty :=
  keeps_of_becomes (P := (· = .empty)) (fun h hc => by cases hc; cases h; rfl) (becomes_of_moved h)
    rfl

theorem moved_slice {xs : Array α} {i : Nat} {d : Cursor W α}
    (h : ReflTransGen Moved (.slice xs i) d) : ∃ j, d = .slice xs j := by
  refine keeps_of_becomes (P := fun d => ∃ j, d = .slice xs j) (fun h hc => ?_)
    (becomes_of_moved h) ⟨i, rfl⟩
  obtain ⟨j, rfl⟩ := hc
  cases h <;> exact ⟨_, rfl⟩

theorem Later.moved {c d : Cursor W α} (h : c.Later d) : ReflTransGen Moved c d := by
  induction h with
  | same => exact .refl
  | step _ hs ih => exact ih.trans (moved_of_step hs)
  | advanceBy _ hs ih => exact ih.trans (moved_of_advanceBy hs)

theorem Later.becomes {c d : Cursor W α} (h : c.Later d) : ReflTransGen Becomes c d :=
  becomes_of_moved h.moved

theorem InBounds.moved {c d : Cursor W α} (h : c.InBounds) (hm : ReflTransGen Moved c d) :
    d.InBounds :=
  keeps_of_becomes (P := InBounds) Becomes.inBounds (becomes_of_moved hm) h

theorem Later.inBounds {c d : Cursor W α} (h : c.Later d) (hc : c.InBounds) : d.InBounds :=
  hc.moved h.moved

theorem Later.firm {c d : Cursor W α} (h : c.Later d) (hc : c.Firm) : d.Firm :=
  keeps_of_becomes (P := Firm) Becomes.firm h.becomes hc

theorem ascend_inBounds {c : Cursor W α} (h : c.InBounds) : c.ascend.InBounds := by
  cases c with
  | descend => trivial
  | dive => exact h.2
  | _ => exact h

theorem ascend_firm {c : Cursor W α} (h : c.Firm) : c.ascend.Firm :=
  ⟨ascend_inBounds h.inBounds, ascend_rests h.rests⟩

end Cursor

namespace TreeCursor

/-- The second traversal is what some calls made the first one; it may be pruned at any time. -/
inductive Later (t : TreeCursor W ν) : TreeCursor W ν → Prop
  | same : Later t t
  | prune {u : TreeCursor W ν} (h : Later t u) : Later t u.prune
  | step {u v : TreeCursor W ν} {fuel : Nat} {r : Except Panic (Step ν)} {w w' : W} (h : Later t u)
      (hs : u.step fuel w = some (r, v, w')) : Later t v
  | advanceBy {u v : TreeCursor W ν} {fuel n : Nat} {r : Except Panic Bool} {w w' : W}
      (h : Later t u) (hs : u.advanceBy fuel n w = some (r, v, w')) : Later t v

theorem settle_path (t : TreeCursor W ν) : t.settle.path = t.path ∨ t.settle.path = t.path.ascend := by
  unfold settle
  split
  · exact .inr rfl
  · exact .inl rfl

theorem along_eq_some {ρ : Type} {use : Cursor W ν → W → Option (Except Panic ρ × Cursor W ν × W)}
    {t u : TreeCursor W ν} {r : Except Panic ρ} {w w' : W}
    (h : t.along use w = some (r, u, w')) :
    use t.settle.path w = some (r, u.path, w') ∧ u = { t.settle with path := u.path } := by
  unfold along at h
  rcases hu : use t.settle.path w with _ | ⟨r', c, v⟩ <;> rw [hu] at h
  · cases h
  · cases h
    exact ⟨rfl, rfl⟩

theorem settle_keeps {P : Cursor W ν → Prop} (ha : ∀ {c}, P c → P c.ascend) {t : TreeCursor W ν}
    (h : P t.path) : P t.settle.path := by
  rcases t.settle_path with hs | hs <;> rw [hs]
  · exact h
  · exact ha h

theorem settle_inBounds {t : TreeCursor W ν} (h : t.path.InBounds) : t.settle.path.InBounds :=
  settle_keeps (P := Cursor.InBounds) Cursor.ascend_inBounds h

theorem settle_firm {t : TreeCursor W ν} (h : t.path.Firm) : t.settle.path.Firm :=
  settle_keeps (P := Cursor.Firm) Cursor.ascend_firm h

/-- What single moves and pruning keep of the open streams, all calls keep. -/
theorem Later.keeps {P : Cursor W ν → Prop} (hb : ∀ {c d}, Cursor.Becomes c d → P c → P d)
    (ha : ∀ {c}, P c → P c.ascend) {t u : TreeCursor W ν} (h : t.Later u) (ht : P t.path) :
    P u.path := by
  induction h with
  | same => exact ht
  | prune _ ih => exact ih
  | step _ hs ih =>
    obtain ⟨hp, -⟩ := along_eq_some hs
    exact Cursor.keeps_of_becomes hb (Cursor.becomes_of_moved (Cursor.moved_of_step hp))
      (settle_keeps (P := P) ha ih)
  | advanceBy _ hs ih =>
    unfold TreeCursor.advanceBy at hs
    split at hs
    · cases hs
      exact ih
    · obtain ⟨hp, -⟩ := along_eq_some hs
      exact Cursor.keeps_of_becomes hb (Cursor.becomes_of_moved (Cursor.moved_of_advanceBy hp))
        (settle_keeps (P := P) ha ih)

theorem Later.inBounds {t u : TreeCursor W ν} (h : t.Later u) (ht : t.path.InBounds) :
    u.path.InBounds :=
  h.keeps (P := Cursor.InBounds) Cursor.Becomes.inBounds Cursor.ascend_inBounds ht

theorem Later.firm {t u : TreeCursor W ν} (h : t.Later u) (ht : t.path.Firm) :
    u.path.Firm :=
  h.keeps (P := Cursor.Firm) Cursor.Becomes.firm Cursor.ascend_firm ht

end TreeCursor

end PullStream
