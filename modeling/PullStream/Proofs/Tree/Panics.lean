import PullStream.Proofs.Tree.Listing

/-!
# A traversal goes on after panics

A node whose children cannot be had is gone with all that lies below it, and the traversal is where
it would be without it: `traversal_passes_panics` says what a survey of a tree shows in which some
nodes fail.
-/

set_option autoImplicit false

namespace PullStream

variable {W ν ι : Type}

open Cursor Moves

namespace TreeStream

variable {t : TreeStream W ν ι} {kids : ν → List ν} {fails : ν → Bool}

/-- When only the root is left to be shown and fails, nothing comes after its panic. -/
theorem ListsExcept.first_panics (hl : t.ListsExcept kids fails) (hr : fails t.root)
    {c : Cursor W ν} (hc : c.Plays [.yield t.root]) (w : W) :
    ∃ p x v, Settles (TreeCursor.step · ⟨.descend t.visit t.book c, false, t.base⟩ w)
        (.error p, x, v) ∧
      ∀ w, ∃ v, Settles (x.step · w) (.ok .done, t.exhausted, v) := by
  obtain ⟨d, v, hs, hd⟩ := hc.settles_step w
  have hn := hl t.root v
  simp only [hr, if_true] at hn
  obtain ⟨p, u, he⟩ := hn
  refine ⟨p, _, u, TreeCursor.settles_step (settles_failed tick_descend_eq_draining hs he), ?_⟩
  intro w
  obtain ⟨e, v, hs⟩ := hd.settles_done w
  refine ⟨v, TreeCursor.settles_step (settles_draining tick_descend_eq_draining hs ?_)⟩
  exact fun _ _ ht => settles_step_done ht

end TreeStream

open TreeCursor in
/-- Without its root, a tree whose root fails has no traversal. Any other one goes to its end under
every policy of pruning. It shows the nodes that are left when those that fail are taken out with
all that lies below them and the others are pruned, each with its depth; in the place of every node
that it comes to and that fails there is one panic, the one that the node itself raised. When the
root is to be shown and fails, the panic of the first step is all there is. -/
theorem traversal_passes_panics (t : TreeStream W ν ι) (kids : ν → List ν) (fails : ν → Bool)
    (hl : t.ListsExcept kids fails) (ha : Acc (fun m n => m ∈ kids n) t.root) :
    (∃! f, Forest.Unfolds kids t.root f) ∧
    ∀ f, Forest.Unfolds kids t.root f → ∀ w,
      if fails t.root ∧ ¬ t.includesRoot then
        ∃ p v, t.enter t.root w = (.error p, v) ∧ t.cursor w = (.error p, v)
      else ∃ c v, t.cursor w = (.ok c, v) ∧
        (fails t.root → ∃ p d u, Settles (c.step · v) (.error p, d, u) ∧
          (∀ w, ∃ u, Settles (d.step · w) (.ok .done, t.exhausted, u)) ∧
          t.exhausted.StaysEnded) ∧
        ∀ prunes aside, ∃ os u,
          Settles (fun fuel => c.survey prunes aside fuel [] v) (os, t.exhausted, u) ∧
          Outcome.yields os = (t.whole f).remains fails prunes t.topDepth [] ∧
          List.Forall₂ (t.Accords fails) ((t.whole f).shown fails prunes t.topDepth []) os := by
  refine ⟨Forest.existsUnique_unfolds ha, fun f hf w => ?_⟩
  split
  · next h =>
    have hn := hl t.root w
    simp only [h.1, if_true] at hn
    obtain ⟨p, v, he⟩ := hn
    refine ⟨p, v, he, TreeStream.cursor_of_top_panic ?_⟩
    rw [TreeStream.top_cursor, if_neg h.2, he]
  · next h =>
    obtain ⟨c, v, hc, hp⟩ := hl.top hf h w
    refine ⟨_, v, TreeStream.cursor_of_top hc, fun hr => ?_, fun prunes aside => ?_⟩
    · have hi : t.includesRoot := by simpa [hr] using h
      have hw : (t.whole f).roots = [t.root] := by
        rw [TreeStream.whole, if_pos hi]
        rfl
      rw [hw] at hp
      obtain ⟨p, x, u, hs, hx⟩ := hl.first_panics hr hp v
      exact ⟨p, x, u, hs, hx, ended_staysEnded trivial⟩
    · obtain ⟨os, u, hs, hos, -⟩ := TreeStream.surveys_whole hl.keeps prunes aside
        (fun _ _ _ => rfl) hf hp.hands_blank v
      refine ⟨os, u, hs.settles, ?_, hos⟩
      rw [TreeStream.Accords.yields hos, Forest.filter_shown]

/-- A tree with two nodes that fail: to ask for the children of one panics, and the stream of those
of the other cannot be opened. -/
def thorny : TreeStream (List Nat) Nat Nat where
  root := 0
  children n log := if n = 2 then (.error ⟨"thorn"⟩, log) else (.ok n, n :: log)
  book n := if n = 3 then .deferred (Act.fail "splinter") (fun (_ : Nat) => .empty)
    else .items (sproutKids n).toArray
  includesRoot := false

theorem thorny_lists : thorny.ListsExcept sproutKids fun n => n = 2 ∨ n = 3 := by
  intro n log
  by_cases h2 : n = 2
  · subst h2
    exact ⟨⟨"thorn"⟩, log, rfl⟩
  by_cases h3 : n = 3
  · subst h3
    exact ⟨⟨"splinter"⟩, 3 :: log, rfl⟩
  · simp only [h2, h3, or_self, decide_false, Bool.false_eq_true, if_false, TreeStream.enter,
      thorny, Act.andThen]
    exact Stream.plays_items (sproutKids n).toArray (n :: log)

theorem traversal_passes_panics_thorny :
    ∃ c v u, thorny.cursor [] = (.ok c, v) ∧
      Settles (fun fuel => c.survey (fun _ => 0) (fun _ _ log => log) fuel [] v)
        ([.yield (1, 1), .panic ⟨"splinter"⟩, .panic ⟨"thorn"⟩], thorny.exhausted, u) := by
  have hf : Forest.Unfolds sproutKids thorny.root
      (.cons 1 (.cons 3 .nil .nil) (.cons 2 .nil .nil)) :=
    ⟨rfl, rfl, ⟨rfl, trivial, trivial⟩, rfl, trivial, trivial⟩
  have h := (traversal_passes_panics thorny sproutKids _ thorny_lists sprout_acc).2 _ hf []
  rw [if_neg (by decide)] at h
  obtain ⟨c, v, hc, -, hs⟩ := h
  obtain ⟨os, u, hos, -, hx⟩ := hs (fun _ => 0) fun _ _ log => log
  have hx : List.Forall₂ (thorny.Accords fun n => n = 2 ∨ n = 3) [(1, 1), (3, 2), (2, 1)] os := hx
  obtain _ | ⟨h₁, _ | ⟨⟨p, log, v₁, hp, rfl⟩, _ | ⟨⟨q, log', v₂, hq, rfl⟩, _ | _⟩⟩⟩ := hx
  cases h₁
  cases hp
  cases hq
  exact ⟨c, v, u, hc, hos⟩

end PullStream
