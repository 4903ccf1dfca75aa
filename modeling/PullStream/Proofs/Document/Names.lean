import Mathlib.Algebra.BigOperators.Group.List.Lemmas
import Mathlib.Algebra.GroupWithZero.Nat
import Mathlib.Data.List.Dedup
import PullStream.Census
import PullStream.Proofs.Cursor.Recital
import PullStream.Proofs.Document.Reading
import PullStream.Proofs.Joining
import PullStream.Proofs.Keys

/-!
# The names in a document

Two sessions go through the elements of a document, one that counts names and one that gives each
name when it comes for the first time. Both are shown the same names, those that stand on the lines
of the whole outline, and come to their end within the moves that are granted.
-/

set_option autoImplicit false

namespace PullStream

open Markup Cursor

variable {W : Type}

namespace Forest

variable {ν μ : Type}

/-- The nodes in pre-order. -/
def nodes : Forest ν → List ν
  | nil => []
  | cons n below later => n :: (below.nodes ++ later.nodes)

theorem map_fst_preorder (d : Nat) (f : Forest ν) : (f.preorder d).map Prod.fst = f.nodes := by
  induction f generalizing d with
  | nil => rfl
  | cons n below later ihb ihl =>
    simp only [preorder, nodes, List.map_cons, List.map_append, ihb, ihl]

theorem nodes_map (g : ν → μ) (f : Forest ν) : (f.map g).nodes = f.nodes.map g := by
  induction f with
  | nil => rfl
  | cons n below later ihb ihl => simp only [map, nodes, List.map_cons, List.map_append, ihb, ihl]

theorem length_nodes (f : Forest ν) : f.nodes.length = f.size := by
  induction f with
  | nil => rfl
  | cons n below later ihb ihl =>
    simp only [nodes, size, List.length_cons, List.length_append, ihb, ihl]

end Forest

namespace Markup.Node

theorem elementNames_eq (root : Node) :
    root.elementNames = (forest [root]).nodes.map localName := by
  rw [elementNames, skeleton, Forest.map_fst_preorder, Forest.nodes_map]

theorem length_elementNames (root : Node) : root.elementNames.length = root.skeleton.size := by
  rw [elementNames, Forest.map_fst_preorder, Forest.length_nodes]

/-- Elements that lie side by side are gone through in two moves each and one more. -/
theorem recites_forest (root : Node) {f : Forest Node} (hf : f.Follows childElements)
    (level k : Nat) {rest : Cursor W Node} {ns : List Node} (hr : rest.Recites k ns) :
    (path root level f.roots rest).Recites (2 * f.size + 1 + k) (f.nodes ++ ns) := by
  induction f generalizing level k rest ns with
  | nil => exact .mono (.silent (fun _ => rfl) hr) (by simp only [Forest.size]; omega)
  | cons n below later ihb ihl =>
    obtain ⟨hbn, hb, hl⟩ := hf
    -- the elements beside the first one are what is left when those below it are through
    have hlater := ihl hl level k hr
    have hbelow := ihb hb (level + 1) _ hlater
    rw [hbn] at hbelow
    have h : (path root level (n :: later.roots) rest).Recites _ (n :: _) :=
      .yield (fun _ => rfl) hbelow
    rw [Forest.nodes, List.cons_append, List.append_assoc]
    exact h.mono (by simp only [Forest.size]; omega)

/-- The moves granted are enough to go through all elements of a document. -/
theorem recites_elements {root : Node} (h : root.isElement = true) :
    (top root [root] : Cursor W Node).Recites root.moves (forest [root]).nodes := by
  cases root with
  | element name attributes children =>
    generalize hn : element name attributes children = n
    have hroots : (forest children).roots = n.childElements := by
      rw [roots_forest, ← hn]
      rfl
    have hforest : forest [n] = .cons n (forest children) .nil := by
      rw [← hn]
      rfl
    have hsize := size_forest children
    have hmoves : n.moves = 2 * sizeAll children + 5 := by
      rw [← hn, moves, size]
      omega
    have hend : (top n [] : Cursor W Node).Recites 1 [] := .done fun _ => rfl
    have hbelow := recites_forest n (follows_forest children) 1 1 hend
    rw [hroots] at hbelow
    have htop : (top n [n] : Cursor W Node).Recites _ (n :: _) := .yield (fun _ => rfl) hbelow
    rw [hforest]
    exact htop.mono (by omega)
  | _ => cases h

end Markup.Node

namespace Census

section Counting

variable {κ : Type} [DecidableEq κ]

/-- What has been tallied of a name is how often it has come. -/
theorem lookup_tally (names : List String) (counts : List (String × Nat)) (name : String) :
    ((names.foldl tally counts).lookup name).getD 0 =
      (counts.lookup name).getD 0 + names.count name := by
  induction names generalizing counts with
  | nil => rfl
  | cons n names ih =>
    rw [List.foldl_cons, ih, tally]
    by_cases h : name = n
    · subst h
      rw [Stream.lookup_associate_self, List.count_cons_self, Option.getD_some]
      omega
    · rw [Stream.lookup_associate_of_ne h, List.count_cons_of_ne (Ne.symm h)]

theorem nodup_eraseDups (l : List κ) : l.eraseDups.Nodup := by
  induction hn : l.length using Nat.strong_induction_on generalizing l with
  | _ n ih =>
    cases l with
    | nil => exact List.nodup_nil
    | cons a l =>
      have hl : (l.filter fun b => !b == a).length < n := by
        rw [← hn]
        exact Nat.lt_succ_of_le (List.length_filter_le _ l)
      rw [List.eraseDups_cons]
      exact List.nodup_cons.mpr ⟨by simp, ih _ hl _ rfl⟩

/-- The numbers of occurrences of all that occurs make up the length. -/
theorem sum_count_eraseDups (l : List κ) : (l.eraseDups.map fun a => l.count a).sum = l.length := by
  have hp : l.eraseDups.Perm l.dedup :=
    (List.perm_ext_iff_of_nodup (nodup_eraseDups l) (List.nodup_dedup l)).mpr (by simp)
  rw [(hp.map _).sum_eq, List.sum_map_count_dedup_eq_length]

end Counting

section Sessions

variable {as : List String} {s : Stream W String} {fuel : Nat} {root : Node}

theorem join_of_recites (h : s.Recites fuel as) (sep : String) (w : W) :
    s.join fuel pure sep w = some (.ok (sep.intercalate as), w) := by
  have hv : ∀ out a (w : W),
      joining sep pure out a w = some (.ok (.more (behind sep out a)), w) := fun _ _ _ => rfl
  have hs := h.session hv (·.getD "") (joined sep []) w
  rw [foldl_behind, List.nil_append, getD_joined] at hs
  exact hs

/-- The names in the order in which the elements are gone through. -/
theorem recites_names (h : root.isElement = true) :
    (names root).Recites root.moves root.elementNames := by
  have he : (root.elements.stream : Stream Unit Node).Recites root.moves
      (Node.forest [root]).nodes :=
    fun _ => ⟨Node.top root [root], rfl, Node.recites_elements h⟩
  rw [Node.elementNames_eq]
  exact he.mapping Node.localName

theorem recites_distinct (h : root.isElement = true) :
    (names root).distinct.Recites root.moves root.elementNames.eraseDups :=
  (recites_names h).deduplicating

theorem reduceWith_tally (h : root.isElement = true) :
    (names root).reduceWith root.moves [] (fun counts name => pure (tally counts name)) () =
      some (.ok (root.elementNames.foldl tally []), ()) :=
  (recites_names h).session (fun _ _ _ => rfl) id [] ()

theorem entry_tally (names : List String) (name : String) :
    entry (names.foldl tally []) name = name ++ " " ++ toString (names.count name) := by
  have hc := lookup_tally names [] name
  rw [List.lookup_nil, Option.getD_none, Nat.zero_add] at hc
  rw [entry, hc]

theorem write_uncounted (h : root.isElement = true) (sep : String) :
    (Census.mk sep false).write root = sep.intercalate root.elementNames.eraseDups := by
  have hl : (Census.mk sep false).listing root () = _ := join_of_recites (recites_distinct h) sep ()
  rw [write, Run.answer?, hl]
  rfl

theorem write_counted (h : root.isElement = true) (sep : String) :
    (Census.mk sep true).write root = sep.intercalate (root.elementNames.eraseDups.map fun name =>
      name ++ " " ++ toString (root.elementNames.count name)) := by
  have he := (recites_distinct h).mapping (entry (root.elementNames.foldl tally []))
  have hl : (Census.mk sep true).listing root () = some (.ok (sep.intercalate
      (root.elementNames.eraseDups.map (entry (root.elementNames.foldl tally [])))), ()) := by
    simp only [listing, if_true, Run.andThen, reduceWith_tally h]
    exact join_of_recites he sep ()
  rw [write, Run.answer?, hl]
  simp only [Option.getD_some, funext (entry_tally _)]

/-- A census lists the local names of the elements in the order of their first occurrence, each
once, and if it counts each with the number of elements that have it. The numbers make up the number
of elements. The names are those that stand on the lines of the whole outline. -/
theorem lists_names (root : Node) (h : root.isElement = true) :
    (∀ sep, (Census.mk sep false).write root = sep.intercalate root.elementNames.eraseDups) ∧
    (∀ sep, (Census.mk sep true).write root =
      sep.intercalate (root.elementNames.eraseDups.map fun name =>
        name ++ " " ++ toString (root.elementNames.count name))) ∧
    root.elementNames.eraseDups.Nodup ∧
    (∀ name ∈ root.elementNames.eraseDups, 0 < root.elementNames.count name) ∧
    (root.elementNames.eraseDups.map fun name => root.elementNames.count name).sum =
      root.skeleton.size ∧
    ((∀ name ∈ root.elementNames, IsWord name) →
      (Outline.lines (Outline.whole.write root)).map Outline.nameOn = root.elementNames) := by
  refine ⟨write_uncounted h, write_counted h, nodup_eraseDups _, ?_, ?_, fun hw => ?_⟩
  · intro name hn
    exact List.count_pos_iff.mpr (List.mem_eraseDups.mp hn)
  · rw [sum_count_eraseDups, Node.length_elementNames]
  · rw [Node.elementNames, ← Outline.read_write h hw, List.map_map]
    rfl

end Sessions

/-- A document in which a name comes twice. -/
def twice : Node :=
  .element ⟨"", "a"⟩ [] [.text "x", .element ⟨"p", "b"⟩ [] [], .element ⟨"", "a"⟩ [] []]

theorem lists_names_twice :
    twice.isElement = true ∧ (∀ name ∈ twice.elementNames, IsWord name) ∧
      (Census.mk ", " true).write twice = "a 2, b 1" ∧
      (Outline.lines (Outline.whole.write twice)).map Outline.nameOn = ["a", "b", "a"] := by
  obtain ⟨-, hc, -, -, -, ho⟩ := lists_names twice rfl
  have hw : ∀ name ∈ twice.elementNames, IsWord name := by decide
  exact ⟨rfl, hw, (hc ", ").trans (by decide), ho hw⟩

end Census

end PullStream
