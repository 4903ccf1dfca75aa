import PullStream.Proofs.Supply
import PullStream.Proofs.Tree.Traversal
import Mathlib.Data.List.Forall2

/-!
# Surveys of trees

A node whose children cannot be had makes the step that comes to it panic. `survey` catches that and
steps on, under any policy of pruning. What it shows and what is done on the way is told along the
forest of descendants: the outcomes by `Forest.shown`, the effects by `Forest.perform`, which enters
them into a ledger. A ledger is read off the world, so that the one proof serves whether nothing is
written or everything is. The proof goes along the forest too and speaks about one stream of
siblings at a time (`surveys_forest`): what is open below it enters as the place where the run goes
on when the siblings are exhausted.
-/

set_option autoImplicit false

namespace PullStream

variable {W ν ι : Type}

/-- What is done for the sake of a traversal. A stream of children is known by a mark. -/
inductive Event (κ ν : Type) where
  | called (n : ν)
  | opened (n : ν)
  | failed (n : ν)
  | pulled (stream : κ) (child : Option ν)
  | produced (n : ν) (prunes : Nat)
deriving DecidableEq, Repr

/-- Something that events are written into. A stream is marked by what was written before it. -/
structure Ledger (ν : Type) where
  State : Type
  Mark : Type
  write : Event Mark ν → State → State
  mark : State → Mark

/-- A ledger that nothing is written into. -/
def Ledger.blank (ν : Type) : Ledger ν where
  State := Unit
  Mark := Unit
  write _ _ := ()
  mark _ := ()

/-- What a traversal of a forest writes while a stream hands out the roots and is pulled to its end;
`pull` writes the pulls of this stream. -/
def Forest.perform (ledger : Ledger ν) (fails : ν → Bool) (prunes : List (ν × Nat) → Nat) :
    (Option ν → ledger.State → ledger.State) → Nat → List (ν × Nat) → Forest ν →
      ledger.State → ledger.State
  | pull, _, _, nil, l => pull none l
  | pull, d, seen, cons n below later, l =>
    if fails n then
      later.perform ledger fails prunes pull d seen (ledger.write (.failed n) (pull (some n) l))
    else
      let here := seen ++ [(n, d)]
      let called := ledger.write (.called n) (pull (some n) l)
      let produced := ledger.write (.produced n (prunes here)) (ledger.write (.opened n) called)
      if prunes here = 0 then
        later.perform ledger fails prunes pull d (here ++ below.remains fails prunes (d + 1) here)
          (below.perform ledger fails prunes
            (fun m => ledger.write (.pulled (ledger.mark called) m)) (d + 1) here produced)
      else later.perform ledger fails prunes pull d here produced

open Cursor Moves

namespace Cursor

/-- Stepping the cursor hands out the nodes and then the end. Each step writes what `pull` says. -/
def Hands (ledger : Ledger ν) (read : W → ledger.State)
    (pull : Option ν → ledger.State → ledger.State) : Cursor W ν → List ν → Prop
  | c, [] => ∀ w, ∃ d v, Settles (c.step · w) (.ok .done, d, v) ∧ read v = pull none (read w)
  | c, n :: ns => ∀ w, ∃ d v, Settles (c.step · w) (.ok (.yield n), d, v) ∧
      read v = pull (some n) (read w) ∧ d.Hands ledger read pull ns

theorem Plays.hands_blank {c : Cursor W ν} {ns : List ν} (h : c.Plays (ns.map .yield)) :
    c.Hands (.blank ν) (fun _ => ()) (fun _ _ => ()) ns := by
  induction ns generalizing c with
  | nil =>
    intro w
    obtain ⟨d, v, hs⟩ := h.settles_done w
    exact ⟨d, v, hs, rfl⟩
  | cons n ns ih =>
    intro w
    obtain ⟨d, v, hs, hd⟩ := h.settles_step w
    exact ⟨d, v, hs, rfl, ih hd⟩

end Cursor

/-- The elements among the outcomes. -/
def Outcome.yields {α : Type} (os : List (Outcome α)) : List α :=
  os.filterMap fun
    | yield a => some a
    | panic _ => none

namespace TreeStream

variable (t : TreeStream W ν ι)

/-- Asks for the children of a node and opens their stream. -/
def enter (n : ν) : Act W (Cursor W ν) := (t.children n).andThen fun i => (t.book i).cursor

theorem descent_eq_enter (level : Nat) (n : ν) (rest : Cursor W ν) (w : W) :
    descent t.visit t.book level n rest w = match t.enter n w with
      | (.ok c, v) => (.yield n, .dive t.visit t.book (level + 1) c rest, v)
      | (.error p, v) => (.panic p, rest, v) := by
  simp only [descent, visit, enter, Act.andThen, Act.done, opening]
  rcases t.children n w with ⟨_ | i, v⟩
  · rfl
  · rcases hc : (t.book i).cursor v with ⟨_ | c, u⟩ <;> simp only [hc]

/-- Nodes that do not fail have the children that `kids` says, and what is done to have them is
written into the ledger. -/
def Keeps (kids : ν → List ν) (fails : ν → Bool) (ledger : Ledger ν) (read : W → ledger.State) :
    Prop :=
  ∀ n w, if fails n then
      ∃ p v, t.enter n w = (.error p, v) ∧ read v = ledger.write (.failed n) (read w)
    else
      let called := ledger.write (.called n) (read w)
      ∃ c v, t.enter n w = (.ok c, v) ∧ read v = ledger.write (.opened n) called ∧
        c.Hands ledger read (fun m => ledger.write (.pulled (ledger.mark called) m)) (kids n)

/-- How a step comes back that comes to a node: with a panic of the node where it fails. -/
def Accords (fails : ν → Bool) (x : ν × Nat) (o : Outcome (ν × Nat)) : Prop :=
  if fails x.1 then ∃ p w v, t.enter x.1 w = (.error p, v) ∧ o = .panic p else o = .yield x

end TreeStream

namespace TreeCursor

/-- Steps a traversal until it reports its end, and goes on after every panic. After each node its
depth is read and `prune` is called as often as `prunes` says by what has been produced; then
`aside` does what else the holder does with the node. -/
def survey (prunes : List (ν × Nat) → Nat) (aside : ν → Nat → W → W) :
    Nat → List (ν × Nat) → TreeCursor W ν → W →
      Option (List (Outcome (ν × Nat)) × TreeCursor W ν × W)
  | 0, _, _, _ => none
  | fuel+1, seen, t, w =>
    match t.step fuel w with
    | none => none
    | some (.ok (.yield n), t, w) =>
      let here := seen ++ [(n, t.depth)]
      (survey prunes aside fuel here (prune^[prunes here] t) (aside n (prunes here) w)).map
        fun (os, r) => (.yield (n, t.depth) :: os, r)
    | some (.ok .done, t, w) => some ([], t, w)
    | some (.error p, t, w) =>
      (survey prunes aside fuel seen t w).map fun (os, r) => (.panic p :: os, r)

/-- A run of `survey` that comes to the end, step by step. -/
inductive Surveys (prunes : List (ν × Nat) → Nat) (aside : ν → Nat → W → W) :
    List (ν × Nat) → TreeCursor W ν → W → List (Outcome (ν × Nat)) × TreeCursor W ν × W → Prop
  | done {seen : List (ν × Nat)} {t u : TreeCursor W ν} {w v : W}
      (hs : Settles (t.step · w) (.ok .done, u, v)) : Surveys prunes aside seen t w ([], u, v)
  | node {seen : List (ν × Nat)} {n : ν} {d : Nat} {t u : TreeCursor W ν} {w v : W}
      {os : List (Outcome (ν × Nat))} {r : TreeCursor W ν × W}
      (hs : Settles (t.step · w) (.ok (.yield n), u, v)) (hd : u.depth = d)
      (hn : Surveys prunes aside (seen ++ [(n, d)]) (prune^[prunes (seen ++ [(n, d)])] u)
        (aside n (prunes (seen ++ [(n, d)])) v) (os, r)) :
      Surveys prunes aside seen t w (.yield (n, d) :: os, r)
  | panic {seen : List (ν × Nat)} {p : Panic} {t u : TreeCursor W ν} {w v : W}
      {os : List (Outcome (ν × Nat))} {r : TreeCursor W ν × W}
      (hs : Settles (t.step · w) (.error p, u, v)) (hn : Surveys prunes aside seen u v (os, r)) :
      Surveys prunes aside seen t w (.panic p :: os, r)

variable {prunes : List (ν × Nat) → Nat} {aside : ν → Nat → W → W} {seen : List (ν × Nat)}
  {t u : TreeCursor W ν} {w v : W} {r : List (Outcome (ν × Nat)) × TreeCursor W ν × W}

theorem Surveys.settles (h : Surveys prunes aside seen t w r) :
    Settles (fun fuel => t.survey prunes aside fuel seen w) r := by
  induction h with
  | @done _ t u w v hs =>
    have hd : Settles (fun _ => some (([] : List (Outcome (ν × Nat))), u, v)) ([], u, v) :=
      settles_of_first fun _ => rfl
    exact settles_of_part hs (fun fuel hf => by rw [survey, hf]) hd
  | @node _ n d t u w v os r hs hd hn ih =>
    subst hd
    have hm := ih.map fun (os, r) => (Outcome.yield (n, u.depth) :: os, r)
    exact settles_of_part hs (fun fuel hf => by rw [survey, hf]) hm
  | @panic _ p t u w v os r hs hn ih =>
    have hm := ih.map fun (os, r) => (Outcome.panic p :: os, r)
    exact settles_of_part hs (fun fuel hf => by rw [survey, hf]) hm

/-- A traversal whose steps come back as those of another one is surveyed as that is. -/
theorem Surveys.congr (h : Surveys prunes aside seen u v r)
    (hs : ∀ x, Settles (u.step · v) x → Settles (t.step · w) x) :
    Surveys prunes aside seen t w r := by
  cases h with
  | done hd => exact .done (hs _ hd)
  | node hn hd hr => exact .node (hs _ hn) hd hr
  | panic hd hn => exact .panic (hs _ hd) hn

/-- A survey without a panic, during which the holder does nothing else, is an exploration. -/
theorem Surveys.explores (h : Surveys prunes (fun _ _ w => w) seen t w r) {xs : List (ν × Nat)}
    (hr : r.1 = xs.map .yield) : Explores prunes (seen ++ xs) r.2.1 seen t w := by
  induction h generalizing xs with
  | done hs =>
    obtain rfl : xs = [] := List.map_eq_nil_iff.mp hr.symm
    rw [List.append_nil]
    exact .done hs
  | @node seen n d t u w v os r hs hd hn ih =>
    obtain ⟨x, xs, rfl, hx, hos⟩ := List.map_eq_cons_iff.mp hr.symm
    cases hx
    have he := ih hos.symm
    rw [← List.append_cons] at he
    subst hd
    exact .node hs he
  | panic =>
    obtain ⟨x, xs, rfl, hx, -⟩ := List.map_eq_cons_iff.mp hr.symm
    cases hx

/-- What a survey comes to after a move that has found the end of a stream. -/
def Resumes (prunes : List (ν × Nat) → Nat) (aside : ν → Nat → W → W) (base : Nat)
    (seen : List (ν × Nat)) : Move ν × Cursor W ν × W →
      List (Outcome (ν × Nat)) × TreeCursor W ν × W → Prop
  | (.silent, c, w), r => Surveys prunes aside seen ⟨c, false, base⟩ w r
  | (.done, c, w), r => r = ([], ⟨c, false, base⟩, w)
  | _, _ => False

end TreeCursor

section Draining

variable {tree : TreeStream W ν ι} {level base : Nat} {around : Cursor W ν → Cursor W ν}
  {finish : W → Move ν × Cursor W ν × W}

/-- A node whose children cannot be had makes the step that comes to it panic and is gone. -/
theorem settles_failed {top top' : Cursor W ν} {n : ν} {p : Panic} {w v u : W}
    (ht : ∀ top w, (around top).tick w =
      draining tree.visit tree.book level around finish (top.tick w))
    (hs : Settles (top.step · w) (.ok (.yield n), top', v))
    (he : tree.enter n v = (.error p, u)) :
    Settles ((around top).step · w) (.error p, around top', u) := by
  apply settles_draining ht hs
  intro c u' hc
  simp only [Move.ofStep, draining, tree.descent_eq_enter, he] at hc
  exact settles_step_panic hc

/-- A node is shown with the stream of its children open. -/
theorem settles_entered {top top' c : Cursor W ν} {n : ν} {w v u : W}
    (ht : ∀ top w, (around top).tick w =
      draining tree.visit tree.book level around finish (top.tick w))
    (hs : Settles (top.step · w) (.ok (.yield n), top', v))
    (he : tree.enter n v = (.ok c, u)) :
    Settles ((around top).step · w)
      (.ok (.yield n), dive tree.visit tree.book (level + 1) c (around top'), u) := by
  apply settles_draining ht hs
  intro c' u' hc
  simp only [Move.ofStep, draining, tree.descent_eq_enter, he] at hc
  exact settles_step_yield hc

variable {prunes : List (ν × Nat) → Nat} {aside : ν → Nat → W → W} {seen : List (ν × Nat)}

/-- A node is shown with its depth, and the survey goes on among its children, or past them when it
is pruned: then their stream is dropped before anything is taken from it. -/
theorem surveys_entered {top top' c : Cursor W ν} {n : ν} {d : Nat} {w v u : W}
    {os : List (Outcome (ν × Nat))} {r : TreeCursor W ν × W}
    (ht : ∀ top w, (around top).tick w =
      draining tree.visit tree.book level around finish (top.tick w))
    (hs : Settles (top.step · w) (.ok (.yield n), top', v))
    (he : tree.enter n v = (.ok c, u))
    (hd : (dive tree.visit tree.book (level + 1) c (around top')).height - base = d)
    (hr : TreeCursor.Surveys prunes aside (seen ++ [(n, d)])
      ⟨if prunes (seen ++ [(n, d)]) = 0 then dive tree.visit tree.book (level + 1) c (around top')
        else around top', false, base⟩ (aside n (prunes (seen ++ [(n, d)])) u) (os, r)) :
    TreeCursor.Surveys prunes aside seen ⟨around top, false, base⟩ w (.yield (n, d) :: os, r) := by
  apply TreeCursor.Surveys.node (TreeCursor.settles_step (settles_entered ht hs he)) hd
  rw [TreeCursor.prune_iterate]
  split
  · next hz => rwa [if_pos hz] at hr
  · next hz =>
    rw [if_neg hz] at hr
    exact hr.congr fun x hx => hx

/-- When the stream that is drained has ended, a survey goes on as `finish` says. -/
theorem surveys_finish {top top' : Cursor W ν} {w v : W}
    {r : List (Outcome (ν × Nat)) × TreeCursor W ν × W}
    (ht : ∀ top w, (around top).tick w =
      draining tree.visit tree.book level around finish (top.tick w))
    (hs : Settles (top.step · w) (.ok .done, top', v))
    (hr : TreeCursor.Resumes prunes aside base seen (finish v) r) :
    TreeCursor.Surveys prunes aside seen ⟨around top, false, base⟩ w r := by
  rcases hf : finish v with ⟨_ | _ | _ | _, c, u⟩ <;> rw [hf] at hr
  · apply TreeCursor.Surveys.congr hr
    intro x hx
    have hinj : Function.Injective fun x : Except Panic (Step ν) × Cursor W ν × W =>
        (x.1, (⟨x.2.1, false, base⟩ : TreeCursor W ν), x.2.2) := by
      rintro ⟨x, c, w⟩ ⟨x', c', w'⟩ h
      cases h
      rfl
    obtain ⟨⟨x, d, u'⟩, hd, rfl⟩ := hx.of_map hinj
    apply TreeCursor.settles_step
    apply settles_draining ht hs
    intro c' w' hc
    exact settles_step_silent (hc.trans hf) hd
  · exact hr.elim
  · cases hr
    apply TreeCursor.Surveys.done
    apply TreeCursor.settles_step
    apply settles_draining ht hs
    intro c' w' hc
    exact settles_step_done (hc.trans hf)
  · exact hr.elim

/-- Around a stream of siblings that is about to be drained, a survey shows the forest that hangs
below them, writes what that takes, and goes on from there as `finish` says. -/
theorem surveys_forest {kids : ν → List ν} {fails : ν → Bool} {ledger : Ledger ν}
    {read : W → ledger.State} (hk : tree.Keeps kids fails ledger read)
    (ha : ∀ n k w, read (aside n k w) = ledger.write (.produced n k) (read w)) {f : Forest ν}
    (hf : f.Follows kids) {d : Nat} {top : Cursor W ν}
    {pull : Option ν → ledger.State → ledger.State}
    (ht : ∀ top w, (around top).tick w =
      draining tree.visit tree.book level around finish (top.tick w))
    (hh : ∀ top, (around top).height + 1 = base + d) (hp : top.Hands ledger read pull f.roots)
    (w : W) :
    ∃ os u, List.Forall₂ (tree.Accords fails) (f.shown fails prunes d seen) os ∧
      read u = f.perform ledger fails prunes pull d seen (read w) ∧
      ∀ r, TreeCursor.Resumes prunes aside base (seen ++ f.remains fails prunes d seen)
          (finish u) r →
        TreeCursor.Surveys prunes aside seen ⟨around top, false, base⟩ w (os ++ r.1, r.2) := by
  induction f generalizing d level around finish top seen w pull with
  | nil =>
    obtain ⟨top', v, hs, hv⟩ := hp w
    refine ⟨[], v, .nil, hv, fun r hr => surveys_finish ht hs ?_⟩
    rwa [Forest.remains, Forest.fell, Forest.cut, Forest.preorder, List.append_nil] at hr
  | cons n below later ihb ihl =>
    obtain ⟨hbn, hb, hr⟩ := hf
    obtain ⟨top', v, hs, hv, hp'⟩ := hp w
    have hn := hk n v
    rw [Forest.shown, Forest.perform, ← hv]
    cases hfn : fails n with
    | true =>
      simp only [hfn, if_true] at hn ⊢
      obtain ⟨p, v', he, hv'⟩ := hn
      obtain ⟨os, u, hos, hu, hrest⟩ := ihl hr ht hh hp' v'
      rw [hv'] at hu
      have hacc : tree.Accords fails (n, d) (.panic p) := by
        simp only [TreeStream.Accords, hfn, if_true]
        exact ⟨p, v, v', he, rfl⟩
      refine ⟨.panic p :: os, u, .cons hacc hos, hu, fun r hres => ?_⟩
      rw [Forest.remains_failed below later hfn] at hres
      exact .panic (TreeCursor.settles_step (settles_failed ht hs he)) (hrest r hres)
    | false =>
      simp only [hfn, Bool.false_eq_true, if_false] at hn ⊢
      obtain ⟨c, v', he, hv', hc⟩ := hn
      have hdive : ∀ c : Cursor W ν,
          (dive tree.visit tree.book (level + 1) c (around top')).height + 1 = base + (d + 1) := by
        intro c
        have hd := hh top'
        simp only [height]
        omega
      have hdepth : (dive tree.visit tree.book (level + 1) c (around top')).height - base = d := by
        have hd := hdive c
        omega
      have hacc : tree.Accords fails (n, d) (.yield (n, d)) := by
        simp only [TreeStream.Accords, hfn, Bool.false_eq_true, if_false]
      have hread : read (aside n (prunes (seen ++ [(n, d)])) v') = ledger.write
          (.produced n (prunes (seen ++ [(n, d)])))
          (ledger.write (.opened n) (ledger.write (.called n) (read v))) := by
        rw [ha, hv']
      by_cases hz : prunes (seen ++ [(n, d)]) = 0
      -- The stream of children is drained around the siblings, and its end leads back to them.
      · rw [← hbn] at hc
        obtain ⟨osb, ub, hosb, hub, hrestb⟩ := ihb hb
          (tick_dive_eq_draining (level + 1) · (around top')) hdive hc
          (aside n (prunes (seen ++ [(n, d)])) v')
        obtain ⟨osl, ul, hosl, hul, hrestl⟩ := ihl hr ht hh hp' ub
        rw [hread] at hub
        simp only [hz, if_true] at hosb hub ⊢
        refine ⟨.yield (n, d) :: (osb ++ osl), ul, .cons hacc (List.rel_append hosb hosl), ?_,
          fun r hres => ?_⟩
        · rw [hul, hub]
        · rw [Forest.remains_kept below later hfn hz] at hres
          have hl := hrestl r (by simpa using hres)
          have hb := hrestb (osl ++ r.1, r.2) hl
          rw [← List.append_assoc] at hb
          apply surveys_entered ht hs he hdepth
          rwa [if_pos hz]
      · obtain ⟨os, u, hos, hu, hrest⟩ := ihl hr ht hh hp'
          (aside n (prunes (seen ++ [(n, d)])) v')
        rw [hread] at hu
        simp only [hz, if_false]
        refine ⟨.yield (n, d) :: os, u, .cons hacc hos, hu, fun r hres => ?_⟩
        rw [Forest.remains_pruned below later hfn hz, List.append_cons] at hres
        apply surveys_entered ht hs he hdepth
        rw [if_neg hz]
        exact hrest r hres

end Draining

namespace TreeStream

variable {t : TreeStream W ν ι} {kids : ν → List ν} {fails : ν → Bool} {c : Cursor W ν} {w v : W}

theorem top_cursor (t : TreeStream W ν ι) (w : W) :
    t.top.cursor w =
      if t.includesRoot then (Stream.once t.root).cursor w else t.enter t.root w := by
  unfold top
  split <;> rfl

/-- A traversal drains the stream of the nodes that it starts from. -/
theorem cursor_of_top (h : t.top.cursor w = (.ok c, v)) :
    t.cursor w = (.ok ⟨.descend t.visit t.book c, false, t.base⟩, v) := by
  simp only [cursor, stream, Stream.cursor, Act.andThen, h, Act.done]

theorem cursor_of_top_panic {p : Panic} (h : t.top.cursor w = (.error p, v)) :
    t.cursor w = (.error p, v) := by
  simp only [cursor, stream, Stream.cursor, Act.andThen, h]

/-- A survey of a whole tree shows what there is to show and ends. -/
theorem surveys_whole {ledger : Ledger ν} {read : W → ledger.State}
    (hk : t.Keeps kids fails ledger read) (prunes : List (ν × Nat) → Nat) (aside : ν → Nat → W → W)
    (ha : ∀ n k w, read (aside n k w) = ledger.write (.produced n k) (read w)) {f : Forest ν}
    (hf : f.Unfolds kids t.root) {pull : Option ν → ledger.State → ledger.State}
    (hc : c.Hands ledger read pull (t.whole f).roots) (w : W) :
    ∃ os u, TreeCursor.Surveys prunes aside [] ⟨.descend t.visit t.book c, false, t.base⟩ w
        (os, t.exhausted, u) ∧
      List.Forall₂ (t.Accords fails) ((t.whole f).shown fails prunes t.topDepth []) os ∧
      read u = (t.whole f).perform ledger fails prunes pull t.topDepth [] (read w) := by
  have hh : ∀ top, (descend t.visit t.book top).height + 1 = t.base + t.topDepth := by
    intro top
    simp only [height, base, topDepth]
    split <;> rfl
  obtain ⟨os, u, hos, hu, hs⟩ := surveys_forest hk ha (follows_whole hf) tick_descend_eq_draining
    hh hc w
  have hr : TreeCursor.Surveys prunes aside [] ⟨.descend t.visit t.book c, false, t.base⟩ w
      (os ++ [], t.exhausted, u) := hs ([], t.exhausted, u) rfl
  rw [List.append_nil] at hr
  exact ⟨os, u, hr, hos, hu⟩

/-- The children of a node that does not fail are a list that depends on the node alone. To ask for
those of a node that fails, or to open their stream, panics. -/
def ListsExcept (t : TreeStream W ν ι) (kids : ν → List ν) (fails : ν → Bool) : Prop :=
  ∀ n w, if fails n then ∃ p v, t.enter n w = (.error p, v)
    else ∃ c v, t.enter n w = (.ok c, v) ∧ c.Plays ((kids n).map .yield)

theorem ListsExcept.keeps (hl : t.ListsExcept kids fails) :
    t.Keeps kids fails (.blank ν) fun _ => () := by
  intro n w
  have hn := hl n w
  cases hf : fails n with
  | true =>
    simp only [hf, if_true] at hn ⊢
    obtain ⟨p, v, he⟩ := hn
    exact ⟨p, v, he, rfl⟩
  | false =>
    simp only [hf, Bool.false_eq_true, if_false] at hn ⊢
    obtain ⟨c, v, he, hp⟩ := hn
    exact ⟨c, v, he, rfl, hp.hands_blank⟩

/-- The stream that a traversal starts from, unless the root is left out and fails. -/
theorem ListsExcept.top (hl : t.ListsExcept kids fails) {f : Forest ν}
    (hf : f.Unfolds kids t.root) (hr : ¬ (fails t.root ∧ ¬ t.includesRoot)) (w : W) :
    ∃ c v, t.top.cursor w = (.ok c, v) ∧ c.Plays ((t.whole f).roots.map .yield) := by
  rw [top_cursor]
  unfold whole
  split
  · exact Stream.plays_ofList [t.root] w
  · next hi =>
    have hn := hl t.root w
    have hfr : fails t.root = false := by simpa [hi] using hr
    simp only [hfr, Bool.false_eq_true, if_false] at hn
    rwa [hf.1]

theorem Lists.except (hl : t.Lists kids) : t.ListsExcept kids fun _ => false := by
  intro n w
  obtain ⟨i, v, hi, hp⟩ := hl n w
  simp only [Bool.false_eq_true, if_false, enter, Act.andThen, hi]
  exact hp v

/-- What has come back in the places of nodes shows those that do not fail. -/
theorem Accords.yields {xs : List (ν × Nat)} {os : List (Outcome (ν × Nat))}
    (h : List.Forall₂ (t.Accords fails) xs os) :
    Outcome.yields os = xs.filter (!fails ·.1) := by
  induction h with
  | nil => rfl
  | @cons x o xs os hx _ ih =>
    unfold Accords at hx
    cases hf : fails x.1 with
    | true =>
      simp only [hf, if_true] at hx
      obtain ⟨p, w, v, -, rfl⟩ := hx
      simpa [Outcome.yields, hf] using ih
    | false =>
      simp only [hf, Bool.false_eq_true, if_false] at hx
      subst hx
      simpa [Outcome.yields, hf] using ih

/-- Where no node fails, what has come back shows them all. -/
theorem Accords.never {xs : List (ν × Nat)} {os : List (Outcome (ν × Nat))}
    (h : List.Forall₂ (t.Accords fun _ => false) xs os) : os = xs.map .yield := by
  induction h with
  | nil => rfl
  | cons hx _ ih =>
    simp only [Accords, Bool.false_eq_true, if_false] at hx
    rw [hx, ih, List.map_cons]

end TreeStream

end PullStream
