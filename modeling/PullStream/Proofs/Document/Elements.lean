import PullStream.Markup.Node
import PullStream.Proofs.Cursor.Moves
import PullStream.Proofs.Tree.Forest

/-!
# The elements of a document

`Node.forest` are the elements among some nodes, nested as in the document, and `Node.skeleton` what
is left of a document when only the local names of its elements count. A walk through the elements
of a document takes two moves for each of them and one more (`walkOn_forest`), so it comes to its end
with as many as `Node.moves` grants it.
-/

set_option autoImplicit false

namespace PullStream

namespace Forest

variable {ν μ : Type}

def size : Forest ν → Nat
  | nil => 0
  | cons _ below later => below.size + later.size + 1

def map (f : ν → μ) : Forest ν → Forest μ
  | nil => nil
  | cons n below later => cons (f n) (below.map f) (later.map f)

/-- Every node before the nodes below it, each behind the nodes that it lies below, the innermost
first. -/
def placed : List ν → Forest ν → List (List ν × ν)
  | _, nil => []
  | above, cons n below later => (above, n) :: (below.placed (n :: above) ++ later.placed above)

/-- The nodes of a pre-order with their depths, without what lies below those that are left so. -/
def spared (leaves : ν → Nat → Bool) : Nat → Forest ν → List (ν × Nat)
  | _, nil => []
  | d, cons n below later =>
    (n, d) :: ((if leaves n d then [] else below.spared leaves (d + 1)) ++ later.spared leaves d)

/-- What a node lies below begins with what its forest lies below. -/
theorem suffix_of_placed {above : List ν} {f : Forest ν} {x : List ν × ν}
    (h : x ∈ f.placed above) : above <:+ x.1 := by
  induction f generalizing above with
  | nil => cases h
  | cons n below later ihb ihl =>
    rcases List.mem_cons.mp h with rfl | h
    · exact List.suffix_rfl
    rcases List.mem_append.mp h with hb | hl
    · exact (List.suffix_cons n above).trans (ihb hb)
    · exact ihl hl

end Forest

namespace Markup.Node

open TreeCursor

mutual

/-- The node and what lies below it, in front of other elements. -/
def before : Node → Forest Node → Forest Node
  | element name attributes children, later =>
    .cons (element name attributes children) (forest children) later
  | text _, later | comment _, later | instruction _ _, later => later

/-- The elements among nodes that lie side by side, and those below them. -/
def forest : List Node → Forest Node
  | [] => .nil
  | n :: rest => before n (forest rest)

end

/-- A document by the local names of its elements and their nesting alone. -/
def skeleton (root : Node) : Forest String := (forest [root]).map localName

theorem roots_forest (ns : List Node) : (forest ns).roots = ns.filter isElement := by
  induction ns with
  | nil => rfl
  | cons n ns ih =>
    cases n with
    | element name attributes children =>
      rw [forest, before, Forest.roots, ih]
      rfl
    | _ => exact ih

mutual

theorem follows_before : (n : Node) → (later : Forest Node) → later.Follows childElements →
    (before n later).Follows childElements
  | element _ _ children, _, h => ⟨roots_forest children, follows_forest children, h⟩
  | text _, _, h | comment _, _, h | instruction _ _, _, h => h

theorem follows_forest : (ns : List Node) → (forest ns).Follows childElements
  | [] => trivial
  | n :: rest => follows_before n (forest rest) (follows_forest rest)

end

mutual

theorem size_before : (n : Node) → (later : Forest Node) →
    (before n later).size ≤ n.size + later.size
  | element _ _ children, later => by
    have h := size_forest children
    simp only [before, Forest.size, size]
    omega
  | text _, later | comment _, later | instruction _ _, later => by
    simp only [before, size]
    omega

theorem size_forest : (ns : List Node) → (forest ns).size ≤ sizeAll ns
  | [] => Nat.le_refl 0
  | n :: rest => by
    have h := size_before n (forest rest)
    have hr := size_forest rest
    simp only [forest, sizeAll]
    omega

end

section Walking

variable {W : Type} {root : Node} (leaves : Node → Nat → Bool)

/-- The open stream of elements side by side. -/
def siblings (ns : List Node) : Cursor W Node := .source Stream.listSource false ns

/-- The stream that a traversal starts from, with the nodes that it has still to hand out. -/
def top (root : Node) (ns : List Node) : Cursor W Node :=
  .descend root.elements.visit root.elements.book (siblings ns)

/-- The streams that are open when `ns` are the next elements of the one opened last. -/
def path (root : Node) (level : Nat) (ns : List Node) (rest : Cursor W Node) : Cursor W Node :=
  .dive root.elements.visit root.elements.book level (siblings ns) rest

@[simp] theorem height_path (level : Nat) (ns : List Node) (rest : Cursor W Node) :
    (path root level ns rest).height = rest.height + 1 := rfl

/-- Walks on from some open streams, leaving out what `leaves` says. -/
def walkOn (fuel : Nat) (seen : Array (Node × Nat)) (c : Cursor W Node) (w : W) :
    Option (Except Panic (Array (Node × Nat)) × TreeCursor W Node × W) :=
  walk (fun n d => pure (leaves n d)) fuel seen ⟨c, false, 2⟩ w

/-- An element is seen with its depth, and the walk goes on below it unless that is left out. -/
theorem walkOn_yield {c : Cursor W Node} (level : Nat) (n : Node) (rest : Cursor W Node) {w : W}
    (h : c.tick w = (.yield n, path root level n.childElements rest, w)) (fuel : Nat)
    (seen : Array (Node × Nat)) :
    walkOn leaves (fuel + 1) seen c w =
      walkOn leaves fuel (seen.push (n, rest.height - 1))
        (if leaves n (rest.height - 1) then rest else path root level n.childElements rest) w := by
  have ht : tick ⟨c, false, 2⟩ w =
      (.yield n, ⟨path root level n.childElements rest, false, 2⟩, w) := by
    simp only [tick, settle, h, Bool.false_eq_true, if_false]
  have hd : depth ⟨path root level n.childElements rest, false, 2⟩ = rest.height - 1 := rfl
  simp only [walkOn, walk, ht, hd, Act.pure_apply]
  cases leaves n (rest.height - 1) with
  | true => cases fuel <;> rfl
  | false => rfl

theorem walkOn_nil (fuel level : Nat) (seen : Array (Node × Nat)) (rest : Cursor W Node) (w : W) :
    walkOn leaves (fuel + 1) seen (path root level [] rest) w =
      walkOn leaves fuel seen rest w := rfl

theorem walkOn_cons (fuel level : Nat) (seen : Array (Node × Nat)) (n : Node) (ns : List Node)
    (rest : Cursor W Node) (w : W) :
    walkOn leaves (fuel + 1) seen (path root level (n :: ns) rest) w =
      walkOn leaves fuel (seen.push (n, rest.height))
        (if leaves n rest.height then path root level ns rest
          else path root (level + 1) n.childElements (path root level ns rest)) w :=
  walkOn_yield leaves (level + 1) n (path root level ns rest) rfl fuel seen

/-- A walk through elements that lie side by side sees those that are spared and goes on from what
is open around them. -/
theorem walkOn_forest {f : Forest Node} (hf : f.Follows childElements) (level : Nat)
    (rest : Cursor W Node) (seen : Array (Node × Nat)) (w : W) (least : Nat)
    {r : Except Panic (Array (Node × Nat)) × TreeCursor W Node × W}
    (hr : ∀ fuel, least ≤ fuel →
      walkOn leaves fuel (seen ++ f.spared leaves rest.height) rest w = some r)
    (fuel : Nat) (hfuel : least + 2 * f.size + 1 ≤ fuel) :
    walkOn leaves fuel seen (path root level f.roots rest) w = some r := by
  induction f generalizing level rest seen least fuel with
  | nil =>
    obtain ⟨fuel, rfl⟩ := Nat.exists_eq_add_of_le' (Nat.le_of_add_left_le hfuel)
    rw [Forest.roots, walkOn_nil]
    have h := hr fuel (by omega)
    simpa [Forest.spared] using h
  | cons n below later ihb ihl =>
    obtain ⟨hbn, hb, hl⟩ := hf
    simp only [Forest.size] at hfuel
    obtain ⟨fuel, rfl⟩ := Nat.exists_eq_add_of_le' (Nat.le_of_add_left_le hfuel)
    rw [Forest.roots, walkOn_cons]
    simp only [Forest.spared] at hr
    cases hv : leaves n rest.height with
    | true =>
      simp only [hv, if_true, List.nil_append] at hr ⊢
      apply ihl hl level rest _ least _ fuel (by omega)
      intro fuel h
      simpa using hr fuel h
    | false =>
      simp only [hv, Bool.false_eq_true, if_false, ← hbn] at hr ⊢
      -- the walk comes back to the elements beside when those below are through
      apply ihb hb _ _ _ (least + 2 * later.size + 1) _ fuel (by omega)
      apply ihl hl level rest _ least
      intro fuel h
      have hs : ∀ (xs : Array (Node × Nat)) (ys zs : List (Node × Nat)),
          xs ++ ys ++ zs = xs ++ (ys ++ zs) := fun xs ys zs => Array.ext' (by simp)
      rw [hs]
      simpa using hr fuel h

/-- The moves granted are enough to walk through a whole document. -/
theorem walkOn_top (n : Node) (w : W) (h : n.isElement = true) :
    walkOn leaves n.moves #[] (top n [n]) w =
      some (.ok ((forest [n]).spared leaves 0).toArray, ⟨.empty, false, 2⟩, w) := by
  cases n with
  | element name attributes children =>
    generalize hn : element name attributes children = n
    have hfollows := follows_forest children
    have hroots : (forest children).roots = n.childElements := by
      rw [roots_forest, ← hn]
      rfl
    have hsize := size_forest children
    have hmoves : n.moves = 2 * sizeAll children + 4 + 1 := by
      rw [← hn, moves, size]
      omega
    have hforest : forest [n] = .cons n (forest children) .nil := by
      rw [← hn]
      rfl
    have hend : ∀ fuel seen, walkOn leaves (fuel + 1) seen (top n []) w =
        some (.ok seen, ⟨.empty, false, 2⟩, w) := fun _ _ => rfl
    rw [hmoves, hforest, walkOn_yield leaves 1 n (top n []) rfl]
    show walkOn leaves _ (#[].push (n, 0)) (if leaves n 0 then _ else _) w = _
    simp only [Forest.spared, List.append_nil]
    cases leaves n 0 with
    | true => exact hend _ _
    | false =>
      simp only [Bool.false_eq_true, if_false, ← hroots]
      apply walkOn_forest leaves hfollows 1 (top n []) _ w 1 _ _ (by omega)
      intro fuel hf
      obtain ⟨fuel, rfl⟩ := Nat.exists_eq_add_of_le' hf
      rw [hend]
      simp [top, Cursor.height]
  | _ => cases h

end Walking

end Markup.Node

end PullStream
