import Mathlib.Logic.ExistsUnique

/-!
# Forests

A finite ordered forest, its pre-order listing with the depth of every node, and the forest that is
left when a holder of a traversal prunes: the decision about a node may depend on everything that
was listed up to it. `Forest.Unfolds` ties a forest to a function from nodes to children, and a
function that gives a well-founded tree has exactly one unfolding.
-/

set_option autoImplicit false

namespace PullStream

variable {ν : Type}

/-- The trees below a first node, and those beside it. -/
inductive Forest (ν : Type) where
  | nil
  | cons (n : ν) (below later : Forest ν)
deriving Repr

namespace Forest

def roots : Forest ν → List ν
  | nil => []
  | cons n _ later => n :: later.roots

/-- Every node before the nodes below it, and those before the nodes beside it, each with how far
down it lies when the roots lie at a given depth. -/
def preorder : Nat → Forest ν → List (ν × Nat)
  | _, nil => []
  | d, cons n below later => (n, d) :: (below.preorder (d + 1) ++ later.preorder d)

/-- The forest without what lies below the nodes that `prunes` decides against. It sees the nodes
listed so far, the one to decide about at their end, and answers how often to prune. -/
def cut (prunes : List (ν × Nat) → Nat) : Nat → List (ν × Nat) → Forest ν → Forest ν
  | _, _, nil => nil
  | d, seen, cons n below later =>
    let here := seen ++ [(n, d)]
    let kept := if prunes here = 0 then below.cut prunes (d + 1) here else nil
    cons n kept (later.cut prunes d (here ++ kept.preorder (d + 1)))

/-- The nodes below each node are its children, theirs below them, and so on. -/
def Follows (kids : ν → List ν) : Forest ν → Prop
  | nil => True
  | cons n below later => below.roots = kids n ∧ below.Follows kids ∧ later.Follows kids

/-- The forest of the descendants of a node. -/
def Unfolds (kids : ν → List ν) (n : ν) (f : Forest ν) : Prop :=
  f.roots = kids n ∧ f.Follows kids

theorem cut_never (d : Nat) (seen : List (ν × Nat)) (f : Forest ν) :
    f.cut (fun _ => 0) d seen = f := by
  induction f generalizing d seen with
  | nil => rfl
  | cons n below later ihb ihl => simp only [cut, if_true, ihb, ihl]

/-- Pruning leaves nodes out and does nothing else to the listing. -/
theorem preorder_cut_sublist (prunes : List (ν × Nat) → Nat) (d : Nat) (seen : List (ν × Nat))
    (f : Forest ν) : ((f.cut prunes d seen).preorder d).Sublist (f.preorder d) := by
  induction f generalizing d seen with
  | nil => exact List.Sublist.refl []
  | cons n below later ihb ihl =>
    simp only [cut, preorder]
    apply List.Sublist.cons_cons
    apply List.Sublist.append _ (ihl d _)
    by_cases h : prunes (seen ++ [(n, d)]) = 0
    · simp only [h, if_true]
      exact ihb (d + 1) _
    · simp only [h, if_false]
      exact List.nil_sublist _

theorem Follows.unique {kids : ν → List ν} {f g : Forest ν} (hf : f.Follows kids)
    (hg : g.Follows kids) (h : f.roots = g.roots) : f = g := by
  induction f generalizing g with
  | nil =>
    cases g with
    | nil => rfl
    | cons => cases h
  | cons n below later ihb ihl =>
    cases g with
    | nil => cases h
    | cons m below' later' =>
      obtain ⟨rfl, hl⟩ := List.cons.inj h
      obtain ⟨hbn, hb, hr⟩ := hf
      obtain ⟨hbn', hb', hr'⟩ := hg
      rw [ihb hb hb' (hbn.trans hbn'.symm), ihl hr hr' hl]

section Failing

variable (fails : ν → Bool) (prunes : List (ν × Nat) → Nat)

/-- The forest without the nodes that fail and all that lies below them. -/
def fell : Forest ν → Forest ν
  | nil => nil
  | cons n below later => if fails n then later.fell else cons n below.fell later.fell

/-- The listing of what is left when failing nodes are taken out and the others are pruned. -/
def remains (d : Nat) (seen : List (ν × Nat)) (f : Forest ν) : List (ν × Nat) :=
  ((f.fell fails).cut prunes d seen).preorder d

/-- The nodes that a traversal comes to, those that fail among them, in their places. -/
def shown : Nat → List (ν × Nat) → Forest ν → List (ν × Nat)
  | _, _, nil => []
  | d, seen, cons n below later =>
    if fails n then (n, d) :: later.shown d seen
    else
      let here := seen ++ [(n, d)]
      if prunes here = 0 then
        (n, d) :: (below.shown (d + 1) here ++
          later.shown d (here ++ below.remains fails prunes (d + 1) here))
      else (n, d) :: later.shown d here

variable {fails prunes} {d : Nat} {seen : List (ν × Nat)} {n : ν} (below later : Forest ν)

theorem remains_failed (h : fails n = true) :
    (cons n below later).remains fails prunes d seen = later.remains fails prunes d seen := by
  simp only [remains, fell, h, if_true]

theorem remains_kept (h : fails n = false) (hz : prunes (seen ++ [(n, d)]) = 0) :
    (cons n below later).remains fails prunes d seen =
      (n, d) :: (below.remains fails prunes (d + 1) (seen ++ [(n, d)]) ++
        later.remains fails prunes d
          (seen ++ [(n, d)] ++ below.remains fails prunes (d + 1) (seen ++ [(n, d)]))) := by
  simp only [remains, fell, h, Bool.false_eq_true, if_false, cut, hz, if_true, preorder]

theorem remains_pruned (h : fails n = false) (hz : prunes (seen ++ [(n, d)]) ≠ 0) :
    (cons n below later).remains fails prunes d seen =
      (n, d) :: later.remains fails prunes d (seen ++ [(n, d)]) := by
  simp only [remains, fell, h, Bool.false_eq_true, if_false, cut, hz, preorder, List.nil_append,
    List.append_nil]

/-- Apart from the nodes that fail, what is shown is what is left. -/
theorem filter_shown (f : Forest ν) :
    (f.shown fails prunes d seen).filter (!fails ·.1) = f.remains fails prunes d seen := by
  induction f generalizing d seen with
  | nil => rfl
  | cons n below later ihb ihl =>
    rw [shown]
    cases h : fails n with
    | true => simp [h, ihl, remains_failed below later h]
    | false =>
      by_cases hz : prunes (seen ++ [(n, d)]) = 0
      · simp [h, hz, ihb, ihl, remains_kept below later h hz]
      · simp [h, hz, ihl, remains_pruned below later h hz]

theorem fell_never (f : Forest ν) : f.fell (fun _ => false) = f := by
  induction f with
  | nil => rfl
  | cons n below later ihb ihl => simp only [fell, Bool.false_eq_true, if_false, ihb, ihl]

theorem remains_never (f : Forest ν) :
    f.remains (fun _ => false) prunes d seen = (f.cut prunes d seen).preorder d := by
  rw [remains, fell_never]

/-- Where no node fails, everything that a traversal comes to is left. -/
theorem shown_never (f : Forest ν) :
    f.shown (fun _ => false) prunes d seen = (f.cut prunes d seen).preorder d := by
  rw [← remains_never, ← filter_shown]
  exact (List.filter_eq_self.mpr fun _ _ => rfl).symm

end Failing

/-- Trees that are there one by one make up a forest. -/
theorem exists_of_roots {kids : ν → List ν} (ns : List ν)
    (h : ∀ n ∈ ns, ∃ f, Unfolds kids n f) : ∃ f : Forest ν, f.roots = ns ∧ f.Follows kids := by
  induction ns with
  | nil => exact ⟨nil, rfl, trivial⟩
  | cons n ns ih =>
    obtain ⟨below, hbn, hb⟩ := h n List.mem_cons_self
    obtain ⟨later, hln, hl⟩ := ih fun m hm => h m (List.mem_cons_of_mem n hm)
    exact ⟨cons n below later, congrArg (n :: ·) hln, hbn, hb, hl⟩

theorem exists_unfolds {kids : ν → List ν} {n : ν} (h : Acc (fun m n => m ∈ kids n) n) :
    ∃ f, Unfolds kids n f := by
  induction h with
  | intro n _ ih => exact exists_of_roots (kids n) ih

/-- A node that only finite ways lead down from has one forest of descendants. -/
theorem existsUnique_unfolds {kids : ν → List ν} {n : ν} (h : Acc (fun m n => m ∈ kids n) n) :
    ∃! f, Unfolds kids n f := by
  obtain ⟨f, hf⟩ := exists_unfolds h
  exact ⟨f, hf, fun g hg => hg.2.unique hf.2 (hg.1.trans hf.1.symm)⟩

end Forest

end PullStream
