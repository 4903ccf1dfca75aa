import PullStream.Proofs.Tree.Listing
import PullStream.Proofs.Tree.Log

/-!
# Traversals are lazy

A tree whose streams of children log what is done with them shows when a traversal does what. Its
log is that of the forest that the traversal goes through, so what holds of all such logs holds of
it: `traversal_is_lazy` puts that together.
-/

set_option autoImplicit false

namespace PullStream

variable {W ν ι : Type}

namespace TreeStream

variable {t : TreeStream W ν ι} {kids : ν → List ν} {log : W → List (Event Nat ν)}

/-- The children of a node are a list that depends on the node alone. To ask for them, to open their
stream and to pull it never panics and is entered into a log. -/
def Logs (t : TreeStream W ν ι) (kids : ν → List ν) (log : W → List (Event Nat ν)) : Prop :=
  ∀ n w, ∃ i v c u, t.children n w = (.ok i, v) ∧ log v = log w ++ [.called n] ∧
    (t.book i).cursor v = (.ok c, u) ∧ log u = log v ++ [.opened n] ∧
    c.Hands (.log ν) log (fun m l => l ++ [.pulled (log v).length m]) (kids n)

theorem Logs.keeps (hl : t.Logs kids log) : t.Keeps kids (fun _ => false) (.log ν) log := by
  intro n w
  obtain ⟨i, v, c, u, hi, hv, hc, hu, hh⟩ := hl n w
  simp only [Bool.false_eq_true, if_false]
  rw [hv] at hu hh
  refine ⟨c, u, ?_, hu, hh⟩
  simp only [enter, Act.andThen, hi, hc]

/-- What is in the log when a traversal has been created. -/
def prologue (t : TreeStream W ν ι) : List (Event Nat ν) :=
  if t.includesRoot then [] else [.called t.root, .opened t.root]

/-- What is written when the stream is pulled that a traversal starts from: nothing if it stands for
the root alone. -/
def firstPull (t : TreeStream W ν ι) (m : Option ν) (l : List (Event Nat ν)) : List (Event Nat ν) :=
  if t.includesRoot then l else l ++ [.pulled 1 m]

theorem Logs.top (hl : t.Logs kids log) {f : Forest ν} (hf : f.Unfolds kids t.root) {w : W}
    (hw : log w = []) :
    ∃ c v, t.top.cursor w = (.ok c, v) ∧ log v = t.prologue ∧
      c.Hands (.log ν) log t.firstPull (t.whole f).roots := by
  unfold prologue whole firstPull
  rw [top_cursor]
  split
  · refine ⟨.source Stream.listSource false [t.root], w, rfl, hw, fun w => ?_⟩
    refine ⟨_, w, Cursor.settles_step_yield rfl, rfl, fun w => ?_⟩
    exact ⟨_, w, Cursor.settles_step_done rfl, rfl⟩
  · obtain ⟨c, v, he, hv, hc⟩ := hl.keeps t.root w
    rw [hw] at hv hc
    rw [hf.1]
    exact ⟨c, v, he, hv, hc⟩

/-- The log of a whole traversal comes about in the order of `Written`. -/
theorem written_whole {f : Forest ν} (hf : f.Unfolds kids t.root)
    (prunes : List (ν × Nat) → Nat) :
    Written kids t.root ((t.whole f).perform (.log ν) (fun _ => false) prunes t.firstPull t.topDepth
      [] t.prologue) [] := by
  obtain ⟨hr, hf⟩ := hf
  have hb : Written kids t.root ([.called t.root] ++ [.opened t.root]) [(1, f.roots)] := by
    rw [hr]
    exact .begun
  unfold prologue whole firstPull topDepth
  split
  · simp only [Forest.perform, Bool.false_eq_true, if_false]
    by_cases hz : prunes ([] ++ [(t.root, 0)]) = 0
    · simp only [hz, if_true]
      exact Forest.written_perform hf (.kept hb)
    · simp only [hz, if_false]
      rw [hr] at hb
      exact .dropped hz hb
  · exact Forest.written_perform hf hb

theorem continues_whole (t : TreeStream W ν ι) (f : Forest ν) (prunes : List (ν × Nat) → Nat) :
    Continues t.prologue ((t.whole f).perform (.log ν) (fun _ => false) prunes t.firstPull
      t.topDepth [] t.prologue)
      ((((t.whole f).cut prunes t.topDepth []).preorder t.topDepth).map Prod.fst) := by
  rw [← Forest.remains_never]
  apply Forest.continues_perform
  intro m l
  unfold firstPull
  split
  · exact ⟨[], (List.append_nil l).symm, rfl, rfl⟩
  · exact continues_pulled l 1 m

end TreeStream

open TreeCursor in
/-- The descendants of the root make up one forest. Of a tree that logs what is done with it, a
traversal without the root begins with the call for the root's children and the opening of their
stream, and one with the root does nothing before its first step. Under every policy of pruning it
shows the nodes that are left and ends. Up to then it has called for the children of these nodes
and of no others, once each and in the order in which it has handed them over, and the log says
that nothing was done too early, too often or in vain. -/
theorem traversal_is_lazy (t : TreeStream W ν ι) (kids : ν → List ν)
    (log : W → List (Event Nat ν)) (hl : t.Logs kids log)
    (ha : Acc (fun m n => m ∈ kids n) t.root) (aside : ν → Nat → W → W)
    (hs : ∀ n j w, log (aside n j w) = log w ++ [.produced n j]) :
    (∃! f, Forest.Unfolds kids t.root f) ∧
    ∀ f, Forest.Unfolds kids t.root f → ∀ w, log w = [] → ∃ c v, t.cursor w = (.ok c, v) ∧
      log v = (if t.includesRoot then [] else [.called t.root, .opened t.root]) ∧
      ∀ prunes, ∃ u,
        let nodes := ((t.whole f).cut prunes t.topDepth []).preorder t.topDepth
        Settles (fun fuel => c.survey prunes aside fuel [] v)
          (nodes.map .yield, t.exhausted, u) ∧
        log v <+: log u ∧
        (log u).filterMap Event.called? =
          (if t.includesRoot then [] else [t.root]) ++ nodes.map Prod.fst ∧
        (log u).filterMap Event.produced? = nodes.map Prod.fst ∧
        Lazily kids t.root (log u) := by
  refine ⟨Forest.existsUnique_unfolds ha, fun f hf w hw => ?_⟩
  obtain ⟨c, v, hc, hv, hh⟩ := hl.top hf hw
  refine ⟨_, v, TreeStream.cursor_of_top hc, hv, fun prunes => ?_⟩
  obtain ⟨os, u, hu, hos, hlog⟩ := TreeStream.surveys_whole hl.keeps prunes aside hs hf hh v
  rw [Forest.shown_never] at hos
  obtain ⟨es, hes, hcalled, hproduced⟩ := t.continues_whole f prunes
  rw [hv] at hlog ⊢
  refine ⟨u, ?_, ?_, ?_, ?_, ?_⟩
  · rw [TreeStream.Accords.never hos] at hu
    exact hu.settles
  · rw [hlog, hes]
    exact List.prefix_append t.prologue es
  · rw [hlog, hes, List.filterMap_append, hcalled]
    congr 1
    unfold TreeStream.prologue
    split <;> rfl
  · rw [hlog, hes, List.filterMap_append, hproduced]
    have hp : t.prologue.filterMap Event.produced? = [] := by
      unfold TreeStream.prologue
      split <;> rfl
    rw [hp, List.nil_append]
  · rw [hlog]
    exact (TreeStream.written_whole hf prunes).lazily

/-- A stream of children that logs its pulls, with the place where its opening was written. -/
def chronicleSource : Source (List (Event Nat Nat)) (Nat × List Nat) Nat where
  pull
    | (k, []), log => (.ok .done, (k, []), log ++ [.pulled k none])
    | (k, m :: ms), log => (.ok (.yield m), (k, ms), log ++ [.pulled k (some m)])
  jump := none

/-- A tree that logs what is done for a traversal. -/
def chronicle : TreeStream (List (Event Nat Nat)) Nat Nat where
  root := 0
  children n log := (.ok n, log ++ [.called n])
  book n :=
    .source (fun log => (.ok (log.length, sproutKids n), log ++ [.opened n])) chronicleSource
  includesRoot := true

theorem chronicleSource_hands (k : Nat) (ns : List Nat) :
    (Cursor.source chronicleSource false (k, ns)).Hands (.log Nat) id
      (fun m log => log ++ [.pulled k m]) ns := by
  induction ns with
  | nil => exact fun log => ⟨_, _, Cursor.settles_step_done rfl, rfl⟩
  | cons n ns ih => exact fun log => ⟨_, _, Cursor.settles_step_yield rfl, rfl, ih⟩

theorem chronicle_logs : chronicle.Logs sproutKids id :=
  fun _ _ => ⟨_, _, _, _, rfl, rfl, rfl, rfl, chronicleSource_hands _ _⟩

theorem traversal_is_lazy_chronicle :
    ∃ c u, chronicle.cursor [] = (.ok c, []) ∧
      Settles (fun fuel => c.survey (fun seen => if seen.length = 2 then 1 else 0)
          (fun n j log => log ++ [.produced n j]) fuel [] [])
        ([.yield (0, 0), .yield (1, 1), .yield (2, 1)], chronicle.exhausted, u) ∧
      u.filterMap Event.called? = [0, 1, 2] ∧ Lazily sproutKids 0 u := by
  have hf : Forest.Unfolds sproutKids chronicle.root
      (.cons 1 (.cons 3 .nil .nil) (.cons 2 .nil .nil)) :=
    ⟨rfl, rfl, ⟨rfl, trivial, trivial⟩, rfl, trivial, trivial⟩
  obtain ⟨c, v, hc, rfl, hp⟩ := (traversal_is_lazy chronicle sproutKids id chronicle_logs sprout_acc
    (fun n j log => log ++ [.produced n j]) fun _ _ _ => rfl).2 _ hf [] rfl
  obtain ⟨u, hu, -, hcalled, -, hlazy⟩ := hp fun seen => if seen.length = 2 then 1 else 0
  exact ⟨c, u, hc, hu, hcalled, hlazy⟩

/-- The log of this traversal: the stream of the children of 1 is opened and left alone. -/
example :
    (Forest.cons 0 (.cons 1 (.cons 3 .nil .nil) (.cons 2 .nil .nil)) .nil).perform (.log Nat)
        (fun _ => false) (fun seen => if seen.length = 2 then 1 else 0) (fun _ log => log) 0 [] [] =
      [.called 0, .opened 0, .produced 0 0,
        .pulled 1 (some 1), .called 1, .opened 1, .produced 1 1,
        .pulled 1 (some 2), .called 2, .opened 2, .produced 2 0,
        .pulled 9 none, .pulled 1 none] := by
  decide

end PullStream
