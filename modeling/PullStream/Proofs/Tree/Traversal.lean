import PullStream.Proofs.Cursor.Termination
import PullStream.Proofs.Descent
import PullStream.Proofs.Tree.Forest
import Mathlib.Logic.Function.Iterate

/-!
# Stepping through a tree

A traversal keeps a stack of half-drained streams of siblings and a prune that waits for the next
step. `explore` steps it to the end under any policy of pruning, and `Explores` is such a run step
by step.
-/

set_option autoImplicit false

namespace PullStream

variable {W ν ι : Type}

namespace TreeStream

/-- A node's children are a list that depends on the node alone: to ask for them, to open their
stream and to drain it never panics, and gives the same nodes in every world. -/
def Lists (t : TreeStream W ν ι) (kids : ν → List ν) : Prop :=
  ∀ n w, ∃ i v, t.children n w = (.ok i, v) ∧ (t.book i).Plays ((kids n).map .yield)

/-- What a traversal goes through, given the descendants of the root. -/
def whole (t : TreeStream W ν ι) (descendants : Forest ν) : Forest ν :=
  if t.includesRoot then .cons t.root descendants .nil else descendants

/-- The depth of the nodes that a traversal begins with. -/
def topDepth (t : TreeStream W ν ι) : Nat := if t.includesRoot then 0 else 1

/-- The state in which every traversal of the tree reports its end. -/
def exhausted (t : TreeStream W ν ι) : TreeCursor W ν := ⟨.empty, false, t.base⟩

theorem follows_whole {t : TreeStream W ν ι} {kids : ν → List ν} {f : Forest ν}
    (h : f.Unfolds kids t.root) : (t.whole f).Follows kids := by
  unfold whole
  split
  · exact ⟨h.1, h.2, trivial⟩
  · exact h.2

end TreeStream

namespace TreeCursor

open Cursor

/-- Steps a traversal until it reports its end. After each node its depth is read, and `prunes`
says by what has been produced how often `prune` is called before the next step. -/
def explore (prunes : List (ν × Nat) → Nat) :
    Nat → List (ν × Nat) → TreeCursor W ν → W →
      Option (Except Panic (List (ν × Nat)) × TreeCursor W ν × W)
  | 0, _, _, _ => none
  | fuel+1, seen, t, w =>
    match t.step fuel w with
    | none => none
    | some (.ok (.yield n), t, w) =>
      let seen := seen ++ [(n, t.depth)]
      explore prunes fuel seen (prune^[prunes seen] t) w
    | some (.ok .done, t, w) => some (.ok seen, t, w)
    | some (.error p, t, w) => some (.error p, t, w)

/-- A run of `explore` that comes to the end, step by step: it has produced `all` in the end. -/
inductive Explores (prunes : List (ν × Nat) → Nat) (all : List (ν × Nat)) (last : TreeCursor W ν) :
    List (ν × Nat) → TreeCursor W ν → W → Prop
  | done {t : TreeCursor W ν} {w v : W} (hs : Settles (t.step · w) (.ok .done, last, v)) :
      Explores prunes all last all t w
  | node {seen : List (ν × Nat)} {n : ν} {t u : TreeCursor W ν} {w v : W}
      (hs : Settles (t.step · w) (.ok (.yield n), u, v))
      (hn : Explores prunes all last (seen ++ [(n, u.depth)])
        (prune^[prunes (seen ++ [(n, u.depth)])] u) v) :
      Explores prunes all last seen t w

variable {prunes : List (ν × Nat) → Nat} {all seen : List (ν × Nat)} {last t u : TreeCursor W ν}
  {w v : W}

theorem Explores.settles (h : Explores prunes all last seen t w) :
    ∃ v, Settles (fun fuel => t.explore prunes fuel seen w) (.ok all, last, v) := by
  induction h with
  | @done t w v hs =>
    have hd : Settles (fun _ => some (Except.ok (ε := Panic) all, last, v)) (.ok all, last, v) :=
      settles_of_first fun _ => rfl
    exact ⟨v, settles_of_part hs (fun fuel hf => by rw [explore, hf]) hd⟩
  | node hs hn ih =>
    obtain ⟨v, hv⟩ := ih
    exact ⟨v, settles_of_part hs (fun fuel hf => by rw [explore, hf]) hv⟩

theorem prune_iterate (k : Nat) (t : TreeCursor W ν) :
    prune^[k] t = if k = 0 then t else t.prune := by
  induction k with
  | zero => rfl
  | succ k ih =>
    rw [Function.iterate_succ_apply', ih]
    cases k <;> rfl

theorem depth_prune_iterate (k : Nat) (t : TreeCursor W ν) : (prune^[k] t).depth = t.depth := by
  rw [prune_iterate]
  split <;> rfl

/-- A pending prune drops the stream opened last, and the step goes on from what is left. -/
theorem step_prune (t : TreeCursor W ν) (fuel : Nat) (w : W) :
    t.prune.step fuel w = step fuel ⟨t.path.ascend, false, t.base⟩ w := rfl

theorem settles_along {ρ : Type}
    {use : Nat → Cursor W ν → W → Option (Except Panic ρ × Cursor W ν × W)} {d : Cursor W ν}
    {r : Except Panic ρ} (h : Settles (use · t.settle.path w) (r, d, v)) :
    Settles (fun fuel => t.along (use fuel) w) (r, { t.settle with path := d }, v) := by
  have hm := h.map fun x => (x.1, ({ t.settle with path := x.2.1 } : TreeCursor W ν), x.2.2)
  exact hm

theorem settles_step {c d : Cursor W ν} {base : Nat} {r : Except Panic (Step ν)}
    (h : Settles (c.step · w) (r, d, v)) :
    Settles (step · ⟨c, false, base⟩ w) (r, ⟨d, false, base⟩, v) := by
  have ha := settles_along (t := ⟨c, false, base⟩) h
  exact ha

end TreeCursor

end PullStream
