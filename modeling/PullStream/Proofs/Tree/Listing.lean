import PullStream.Proofs.Cursor.Stepwise
import PullStream.Proofs.Tree.Survey

/-!
# What a traversal produces

`traversal_lists_tree` puts the results about traversals together: with pruning by any policy a
traversal lists the forest that the policy leaves, without pruning that is what the plain stream
yields, and calls that leave nodes out begin with the step that a pending prune acts on.
-/

set_option autoImplicit false

namespace PullStream

variable {W ν ι : Type} {t : TreeStream W ν ι} {kids : ν → List ν}

open Cursor Moves

/-- What is spliced into a stream of siblings is what lies below them. -/
theorem Forest.spliced (hl : t.Lists kids) {f : Forest ν} (hf : f.Follows kids) (level d : Nat) :
    Spliced t.visit t.book level (f.roots.map .yield) (((f.preorder d).map Prod.fst).map .yield) := by
  induction f generalizing level d with
  | nil => exact .nil
  | cons n below later ihb ihl =>
    obtain ⟨hbn, hb, hr⟩ := hf
    simp only [Forest.preorder, List.map_cons, List.map_append]
    have hv : ∀ w, ∃ i v, t.visit level n w = (.ok (.emitAndEnter n i), v) ∧
        (t.book i).Plays (below.roots.map .yield) := by
      intro w
      obtain ⟨i, v, hi, hp⟩ := hl n w
      rw [hbn]
      refine ⟨i, v, ?_, hp⟩
      simp only [TreeStream.visit, Act.andThen, hi, Act.done]
    exact .emitAndEnter hv (ihb hb _ _) (ihl hr _ _)

/-- A stack of open streams of siblings, each about to list the roots of a forest. -/
inductive TreeStream.Open (t : TreeStream W ν ι) (kids : ν → List ν) : Cursor W ν → Prop
  | closed : t.Open kids .empty
  | bottom {top : Cursor W ν} {f : Forest ν} (hp : top.Plays (f.roots.map .yield))
      (hf : f.Follows kids) : t.Open kids (.descend t.visit t.book top)
  | level {level : Nat} {top rest : Cursor W ν} {f : Forest ν}
      (hp : top.Plays (f.roots.map .yield)) (hf : f.Follows kids) (hr : t.Open kids rest) :
      t.Open kids (.dive t.visit t.book level top rest)

namespace TreeStream.Open

theorem ascend {c : Cursor W ν} (h : t.Open kids c) : t.Open kids c.ascend := by
  cases h with
  | closed => exact .closed
  | bottom => exact .closed
  | level hp hf hr => exact hr

theorem not_jumps {c : Cursor W ν} (h : t.Open kids c) : ¬ c.Jumps := by
  cases h <;> exact id

/-- One move of a stack, made of a move of its top stream, leaves a stack. -/
theorem draining (hl : t.Lists kids) {around : Cursor W ν → Cursor W ν} {level : Nat}
    {finish : W → Move ν × Cursor W ν × W} {f : Forest ν} {m : Move ν} {top : Cursor W ν} {w : W}
    (ha : ∀ {top : Cursor W ν} {f : Forest ν}, top.Plays (f.roots.map .yield) → f.Follows kids →
      t.Open kids (around top))
    (hd : ∀ w, t.Open kids (finish w).2.1) (hf : f.Follows kids)
    (hm : Met Plays (f.roots.map .yield) (m, top, w)) :
    t.Open kids (Moves.draining t.visit t.book level around finish (m, top, w)).2.1 := by
  cases m with
  | silent => exact ha hm hf
  | yield n =>
    obtain ⟨rest, hos, hp⟩ := hm
    cases f with
    | nil => cases hos
    | cons n below later =>
      cases hos
      obtain ⟨hbn, hb, hr⟩ := hf
      obtain ⟨i, v, hi, hkids⟩ := hl n w
      obtain ⟨c, u, hc, hcp⟩ := hkids v
      rw [← hbn] at hcp
      simp only [Moves.draining, descent, visit, Act.andThen, hi, Act.done, opening, hc]
      exact .level hcp hb (ha hp hr)
  | done => exact hd w
  | panic p =>
    obtain ⟨rest, hos, -⟩ := hm
    cases f <;> cases hos

theorem tick (hl : t.Lists kids) (c : Cursor W ν) (w : W) (h : t.Open kids c) :
    t.Open kids (c.tick w).2.1 := by
  cases h with
  | closed => exact .closed
  | bottom hp hf =>
    rw [tick_descend_eq_draining]
    exact draining hl .bottom (fun _ => .closed) hf (hp.met w)
  | level hp hf hr =>
    rw [tick_dive_eq_draining]
    exact draining hl (fun hp hf => .level hp hf hr) (fun _ => hr) hf (hp.met w)

/-- What a stack has still to produce. -/
theorem plays (hl : t.Lists kids) {c : Cursor W ν} (h : t.Open kids c) :
    ∃ ns : List ν, c.Plays (ns.map .yield) := by
  induction h with
  | closed => exact ⟨[], .of_met fun _ => rfl⟩
  | bottom hp hf => exact ⟨_, hp.descend (Forest.spliced hl hf 0 0)⟩
  | @level level top rest f hp hf hr ih =>
    obtain ⟨ns, hns⟩ := ih
    refine ⟨(f.preorder 0).map Prod.fst ++ ns, ?_⟩
    rw [List.map_append]
    have hg : ∀ w, Met Plays (ns.map .yield) (.silent, rest, w) := fun _ => hns
    exact (Forest.spliced hl hf level 0).plays (tick_dive_eq_draining level · rest) hg hp

/-- Stepping a stack comes back, and never with a panic. -/
theorem settles_step (hl : t.Lists kids) {c : Cursor W ν} (h : t.Open kids c) (w : W) :
    ∃ r d v, Settles (c.step · w) (.ok r, d, v) := by
  obtain ⟨ns, hp⟩ := h.plays hl
  cases ns with
  | nil =>
    obtain ⟨d, v, hs⟩ := hp.settles_done w
    exact ⟨.done, d, v, hs⟩
  | cons n ns =>
    obtain ⟨d, v, hs, -⟩ := hp.settles_step w
    exact ⟨.yield n, d, v, hs⟩

theorem of_settles_step (hl : t.Lists kids) {c d : Cursor W ν} {r : Except Panic (Step ν)} {w v : W}
    (h : t.Open kids c) (hs : Settles (c.step · w) (r, d, v)) : t.Open kids d := by
  obtain ⟨least, hleast⟩ := hs
  exact step_keeps (tick hl) (hleast least (Nat.le_refl least)) h

/-- The first node that is left out is the one that a step produces. -/
theorem settles_advanceBy_succ (hl : t.Lists kids) {c d : Cursor W ν} {n : ν} {w v : W} {k : Nat}
    {r : Except Panic Bool × Cursor W ν × W} (h : t.Open kids c)
    (hs : Settles (c.step · w) (.ok (.yield n), d, v)) (hr : Settles (d.advanceBy · k v) r) :
    Settles (c.advanceBy · (k + 1) w) r := by
  obtain ⟨least, hleast⟩ := hs
  exact Cursor.settles_advanceBy_succ (tick hl) (fun _ => not_jumps) h
    (hleast least (Nat.le_refl least)) hr

theorem settles_advanceBy_done (hl : t.Lists kids) {c d : Cursor W ν} {w v : W} (k : Nat)
    (h : t.Open kids c) (hs : Settles (c.step · w) (.ok .done, d, v)) :
    Settles (c.advanceBy · (k + 1) w) (.ok false, d, v) := by
  obtain ⟨least, hleast⟩ := hs
  exact Cursor.settles_advanceBy_done (tick hl) (fun _ => not_jumps) h
    (hleast least (Nat.le_refl least)) k

theorem settles_advanceBy (hl : t.Lists kids) {c : Cursor W ν} (h : t.Open kids c) (k : Nat)
    (w : W) : ∃ b d v, Settles (c.advanceBy · k w) (.ok b, d, v) ∧ t.Open kids d := by
  induction k generalizing c w with
  | zero => exact ⟨true, c, w, settles_advanceBy_zero h.not_jumps w, h⟩
  | succ k ih =>
    obtain ⟨r, d, v, hs⟩ := h.settles_step hl w
    have hd := h.of_settles_step hl hs
    cases r with
    | yield n =>
      obtain ⟨b, e, u, hr, he⟩ := ih hd v
      exact ⟨b, e, u, h.settles_advanceBy_succ hl hs hr, he⟩
    | done => exact ⟨false, d, v, h.settles_advanceBy_done hl k hs, hd⟩

theorem settles_nth (hl : t.Lists kids) {c : Cursor W ν} (h : t.Open kids c) (k : Nat) (w : W) :
    ∃ r d v, Settles (c.nth · k w) (r, d, v) := by
  obtain ⟨b, d, v, ha, hd⟩ := h.settles_advanceBy hl k w
  cases b with
  | true =>
    obtain ⟨r, e, u, hs⟩ := hd.settles_step hl v
    exact ⟨_, _, _, settles_nth_true ha hs⟩
  | false => exact ⟨_, _, _, settles_nth_false ha⟩

end TreeStream.Open

namespace TreeCursor

variable {x y : TreeCursor W ν} {w v : W}

theorem settle_settled (x : TreeCursor W ν) (d : Cursor W ν) :
    ({ x.settle with path := d } : TreeCursor W ν).settle = { x.settle with path := d } := by
  obtain ⟨path, pruning, base⟩ := x
  cases pruning <;> rfl

theorem settles_advanceBy {k : Nat} {d : Cursor W ν} {r : Except Panic Bool}
    (h : Settles (x.settle.path.advanceBy · (k + 1) w) (r, d, v)) :
    Settles (x.advanceBy · (k + 1) w) (r, { x.settle with path := d }, v) := by
  have ha := settles_along h
  simpa only [advanceBy, Nat.add_one_ne_zero, if_false] using ha

theorem settles_along_settled {ρ : Type} (hx : x.settle = x)
    {use : Nat → Cursor W ν → W → Option (Except Panic ρ × Cursor W ν × W)} {d : Cursor W ν}
    {r : Except Panic ρ} (h : Settles (use · x.path w) (r, d, v)) :
    Settles (fun fuel => x.along (use fuel) w) (r, { x with path := d }, v) := by
  rw [← hx] at h
  have ha := settles_along h
  rwa [hx] at ha

/-- While no prune is pending, leaving nodes out is left to the open streams. -/
theorem settles_advanceBy_settled (hx : x.settle = x) {k : Nat} {d : Cursor W ν}
    {r : Except Panic Bool} (hj : ¬ x.path.Jumps) (h : Settles (x.path.advanceBy · k w) (r, d, v)) :
    Settles (x.advanceBy · k w) (r, { x with path := d }, v) := by
  cases k with
  | zero =>
    have he := h.unique (settles_advanceBy_zero hj w)
    cases he
    exact settles_of_first fun _ => rfl
  | succ k =>
    have ha := settles_along_settled hx h
    simpa only [advanceBy, Nat.add_one_ne_zero, if_false] using ha

/-- In this state `step` comes back, and what leaves nodes out begins with it: a prune that is
pending acts on the first node that is left out. -/
def StepsFirst (x : TreeCursor W ν) (w : W) : Prop :=
  (∃ n y v, Settles (x.step · w) (.ok (.yield n), y, v) ∧
    ∀ k, (∃ r, Settles (y.advanceBy · k v) r ∧ Settles (x.advanceBy · (k + 1) w) r) ∧
      ∃ r, Settles (y.nth · k v) r ∧ Settles (x.nth · (k + 1) w) r) ∨
  ∃ y v, Settles (x.step · w) (.ok .done, y, v) ∧
    ∀ k, Settles (x.advanceBy · (k + 1) w) (.ok false, y, v) ∧
      Settles (x.nth · (k + 1) w) (.ok none, y, v)

theorem settle_open (h : t.Open kids x.path) : t.Open kids x.settle.path := by
  rcases x.settle_path with hs | hs <;> rw [hs]
  · exact h
  · exact h.ascend

theorem Later.isOpen (hl : t.Lists kids) (h : x.Later y) (hx : t.Open kids x.path) :
    t.Open kids y.path := by
  induction h with
  | same => exact hx
  | prune _ ih => exact ih
  | step _ hs ih =>
    obtain ⟨hp, -⟩ := along_eq_some hs
    exact step_keeps (TreeStream.Open.tick hl) hp (settle_open ih)
  | advanceBy _ hs ih =>
    unfold TreeCursor.advanceBy at hs
    split at hs
    · cases hs
      exact ih
    · obtain ⟨hp, -⟩ := along_eq_some hs
      exact advanceBy_keeps (TreeStream.Open.tick hl) (fun _ => TreeStream.Open.not_jumps) hp
        (settle_open ih)

theorem stepsFirst (hl : t.Lists kids) (h : t.Open kids x.path) (w : W) : x.StepsFirst w := by
  have hc : t.Open kids x.settle.path := settle_open h
  obtain ⟨r, d, v, hs⟩ := hc.settles_step hl w
  have hd : t.Open kids d := hc.of_settles_step hl hs
  have hstep : Settles (x.step · w) (.ok r, { x.settle with path := d }, v) := settles_along hs
  cases r with
  | yield n =>
    refine .inl ⟨n, _, v, hstep, fun k => ⟨?_, ?_⟩⟩
    · obtain ⟨b, e, u, ha, -⟩ := hd.settles_advanceBy hl k v
      have hy := settles_advanceBy_settled (settle_settled x d) hd.not_jumps ha
      exact ⟨_, hy, settles_advanceBy (hc.settles_advanceBy_succ hl hs ha)⟩
    · obtain ⟨b, e, u, ha, -⟩ := hd.settles_advanceBy hl k v
      obtain ⟨r, e', u', hn⟩ := hd.settles_nth hl k v
      have hx := settles_nth_congr (hc.settles_advanceBy_succ hl hs ha) ha hn
      exact ⟨_, settles_along_settled (settle_settled x d) hn, settles_along hx⟩
  | done =>
    refine .inr ⟨_, v, hstep, fun k => ?_⟩
    have ha := hc.settles_advanceBy_done hl k hs
    exact ⟨settles_advanceBy ha, settles_along (settles_nth_false ha)⟩

end TreeCursor

namespace TreeStream

theorem plays_top (hl : t.Lists kids) {f : Forest ν} (h : f.Unfolds kids t.root) :
    t.top.Plays ((t.whole f).roots.map .yield) :=
  hl.except.top h (by simp)

/-- A new traversal is about to list what the tree holds. -/
theorem cursor_eq (hl : t.Lists kids) {f : Forest ν} (h : f.Unfolds kids t.root) (w : W) :
    ∃ c v, t.stream.cursor w = (.ok (.descend t.visit t.book c), v) ∧
      t.cursor w = (.ok ⟨.descend t.visit t.book c, false, t.base⟩, v) ∧
      c.Plays ((t.whole f).roots.map .yield) := by
  obtain ⟨c, v, hc, hp⟩ := plays_top hl h w
  have hs : t.stream.cursor w = (.ok (.descend t.visit t.book c), v) := by
    simp only [stream, Stream.cursor, Act.andThen, hc, Act.done]
  refine ⟨c, v, hs, ?_, hp⟩
  simp only [cursor, Act.andThen, hs, Act.done]

theorem explores_whole (hl : t.Lists kids) {f : Forest ν} (h : f.Unfolds kids t.root)
    (prunes : List (ν × Nat) → Nat) {c : Cursor W ν}
    (hp : c.Plays ((t.whole f).roots.map .yield)) (w : W) :
    TreeCursor.Explores prunes (((t.whole f).cut prunes t.topDepth []).preorder t.topDepth)
      t.exhausted [] ⟨.descend t.visit t.book c, false, t.base⟩ w := by
  obtain ⟨os, u, hs, hos, -⟩ := surveys_whole hl.except.keeps prunes (fun _ _ w => w)
    (fun _ _ _ => rfl) h hp.hands_blank w
  rw [Forest.shown_never] at hos
  exact hs.explores (Accords.never hos)

theorem explores_pruned (c : TreeCursor W ν) (hc : c.path.ascend = .empty)
    (hb : c.base = t.base) (prunes : List (ν × Nat) → Nat) (k : Nat) (w : W) :
    TreeCursor.Explores prunes [] t.exhausted [] (TreeCursor.prune^[k + 1] c) w := by
  apply TreeCursor.Explores.done
  rw [TreeCursor.prune_iterate, if_neg (Nat.succ_ne_zero k)]
  have hs : Settles (Cursor.step · .empty w) (.ok .done, (.empty : Cursor W ν), w) :=
    settles_step_done rfl
  simp only [TreeCursor.step_prune, hc, hb]
  exact TreeCursor.settles_step hs

end TreeStream

open TreeCursor in
/-- The descendants of the root make up one forest. With any policy of pruning a traversal steps
through that forest, cut as the policy says, in pre-order and with the depth of every node, and
ends; pruned before its first step it produces nothing. Prunes do not change what `depth` says nor
anything about an exhausted traversal; one that is pending in front of `advanceBy` or `nth` acts on
the first node that is left out. The plain stream yields what is listed without pruning. -/
theorem traversal_lists_tree (t : TreeStream W ν ι) (kids : ν → List ν) (hl : t.Lists kids)
    (ha : Acc (fun m n => m ∈ kids n) t.root) :
    (∃! f, Forest.Unfolds kids t.root f) ∧
    ∀ f, Forest.Unfolds kids t.root f → ∀ w, ∃ c v, t.cursor w = (.ok c, v) ∧
      (∀ prunes, ∃ u, Settles (fun fuel => c.explore prunes fuel [] v)
        (.ok (((t.whole f).cut prunes t.topDepth []).preorder t.topDepth), t.exhausted, u)) ∧
      (∃ u, Settles (fun fuel => c.explore (fun _ => 0) fuel [] v)
        (.ok ((t.whole f).preorder t.topDepth), t.exhausted, u)) ∧
      (∀ prunes k, ∃ u, Settles (fun fuel => (prune^[k + 1] c).explore prunes fuel [] v)
        (.ok [], t.exhausted, u)) ∧
      (∀ k, (prune^[k] t.exhausted).StaysEnded) ∧
      (∀ k (x : TreeCursor W ν), (prune^[k] x).depth = x.depth) ∧
      (∀ x, c.Later x → ∀ w, x.StepsFirst w) ∧
      (∀ fuel (x : TreeCursor W ν) w, x.next fuel w =
        (x.step fuel w).map fun (r, x, w) => (r.map Step.toOption, x, w)) ∧
      ∃ d e u, t.stream.cursor w = (.ok d, v) ∧ Settles (d.outcomes · v)
        (((t.whole f).preorder t.topDepth).map fun x => .yield x.1, e, u) := by
  refine ⟨Forest.existsUnique_unfolds ha, fun f hf w => ?_⟩
  obtain ⟨c, v, hs, hc, hp⟩ := TreeStream.cursor_eq hl hf w
  have explores := fun prunes => TreeStream.explores_whole hl hf prunes hp v
  refine ⟨_, v, hc, fun prunes => (explores prunes).settles, ?_, ?_, ?_, ?_, ?_, ?_, ?_⟩
  · have he := (explores fun _ => 0).settles
    rwa [Forest.cut_never] at he
  · intro prunes k
    exact (TreeStream.explores_pruned _ rfl rfl prunes k v).settles
  · intro k
    apply ended_staysEnded
    rw [prune_iterate]
    split <;> trivial
  · exact depth_prune_iterate
  · intro x hx w
    have ho : t.Open kids (.descend t.visit t.book c) := .bottom hp (TreeStream.follows_whole hf)
    exact stepsFirst hl (hx.isOpen hl ho) w
  · intro fuel x w
    simp only [TreeCursor.next, TreeCursor.step, along, Cursor.next, Option.map_map]
    rfl
  · have hd := hp.descend (Forest.spliced hl (TreeStream.follows_whole hf) 0 t.topDepth)
    obtain ⟨e, u, ho⟩ := hd.outcomes v
    rw [List.map_map] at ho
    exact ⟨_, e, u, hs, ho⟩

/-- Two shoots below the root, and another one below the first of them. -/
def sproutKids : Nat → List Nat
  | 0 => [1, 2]
  | 1 => [3]
  | _ => []

/-- The calls for children are logged. -/
def sprout : TreeStream (List Nat) Nat Nat where
  root := 0
  children n log := (.ok n, n :: log)
  book n := .items (sproutKids n).toArray
  includesRoot := true

theorem sprout_lists : sprout.Lists sproutKids :=
  fun n log => ⟨n, n :: log, rfl, Stream.plays_items (sproutKids n).toArray⟩

theorem sprout_acc : Acc (fun m n => m ∈ sproutKids n) sprout.root := by
  have hl : ∀ n, 2 ≤ n → Acc (fun m n => m ∈ sproutKids n) n := by
    intro n hn
    constructor
    intro m hm
    obtain ⟨k, rfl⟩ := Nat.exists_eq_add_of_le' hn
    cases hm
  constructor
  intro m hm
  have hm : m = 1 ∨ m = 2 := by simpa [sprout, sproutKids] using hm
  rcases hm with rfl | rfl
  · constructor
    intro m hm
    obtain rfl := List.mem_singleton.mp hm
    exact hl 3 (by decide)
  · exact hl 2 (by decide)

theorem traversal_lists_tree_sprout :
    ∃ c v u, sprout.cursor [] = (.ok c, v) ∧
      Settles (fun fuel => c.explore (fun seen => if seen.length = 2 then 1 else 0) fuel [] v)
        (.ok [(0, 0), (1, 1), (2, 1)], sprout.exhausted, u) := by
  have hf : Forest.Unfolds sproutKids sprout.root
      (.cons 1 (.cons 3 .nil .nil) (.cons 2 .nil .nil)) :=
    ⟨rfl, rfl, ⟨rfl, trivial, trivial⟩, rfl, trivial, trivial⟩
  obtain ⟨c, v, hc, hp, -⟩ := (traversal_lists_tree sprout sproutKids sprout_lists sprout_acc).2
    _ hf []
  obtain ⟨u, hu⟩ := hp fun seen => if seen.length = 2 then 1 else 0
  exact ⟨c, v, u, hc, hu⟩

end PullStream
