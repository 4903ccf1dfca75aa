import PullStream.Proofs.Document.Outline

/-!
# Reading an outline

An outline from which nothing is left out has one line for each element, and the indentation of the
line says how far down the element lies. Names and depths are read back from the text
(`Outline.read_write`), since a name has neither a blank nor a line end in it; and a pre-order with
depths comes from one forest only. So documents with the same outline are the same as far as the
names and the nesting of their elements go.
-/

set_option autoImplicit false

namespace PullStream

open Markup

namespace Forest

variable {ν μ : Type}

theorem preorder_map (g : ν → μ) (d : Nat) (f : Forest ν) :
    (f.map g).preorder d = (f.preorder d).map fun x => (g x.1, x.2) := by
  induction f generalizing d with
  | nil => rfl
  | cons n below later ihb ihl =>
    simp only [map, preorder, List.map_cons, List.map_append, ihb, ihl]

theorem spared_of_kept {leaves : ν → Nat → Bool} (h : ∀ n d, leaves n d = false) (d : Nat)
    (f : Forest ν) : f.spared leaves d = f.preorder d := by
  induction f generalizing d with
  | nil => rfl
  | cons n below later ihb ihl =>
    simp only [spared, preorder, h, Bool.false_eq_true, if_false, ihb, ihl]

/-- The list goes on, if it does, with a node that lies less far down. -/
def Rises (d : Nat) (xs : List (ν × Nat)) : Prop := ∀ x ∈ xs.head?, x.2 < d

theorem Rises.preorder_append {d : Nat} {xs : List (ν × Nat)} (h : Rises d xs) (f : Forest ν) :
    Rises (d + 1) (f.preorder d ++ xs) := by
  cases f with
  | nil => exact fun x hx => Nat.lt_succ_of_lt (h x hx)
  | cons n below later =>
    rintro x ⟨⟩
    exact Nat.lt_succ_self d

/-- Where a pre-order ends shows in the depths: what comes behind a forest lies less far down. -/
theorem preorder_append_cancel {d : Nat} {f g : Forest ν} {xs ys : List (ν × Nat)}
    (hx : Rises d xs) (hy : Rises d ys) (h : f.preorder d ++ xs = g.preorder d ++ ys) :
    f = g ∧ xs = ys := by
  induction f generalizing d g xs ys with
  | nil =>
    cases g with
    | nil => exact ⟨rfl, h⟩
    | cons m below later =>
      -- `xs` would begin with a node at the depth of the roots
      have hm : (m, d) ∈ xs.head? := congrArg List.head? h
      exact absurd (hx _ hm) (Nat.lt_irrefl d)
  | cons n below later ihb ihl =>
    cases g with
    | nil =>
      have hn : (n, d) ∈ ys.head? := congrArg List.head? h.symm
      exact absurd (hy _ hn) (Nat.lt_irrefl d)
    | cons m below' later' =>
      simp only [preorder, List.cons_append, List.append_assoc] at h
      obtain ⟨hn, h⟩ := List.cons.inj h
      -- behind what lies below the first node comes what lies beside it, and then what followed
      obtain ⟨rfl, hl⟩ := ihb (hx.preorder_append later) (hy.preorder_append later') h
      obtain ⟨rfl, hxy⟩ := ihl hx hy hl
      exact ⟨by rw [(Prod.mk.inj hn).1], hxy⟩

theorem preorder_injective (d : Nat) :
    Function.Injective (preorder d : Forest ν → List (ν × Nat)) := by
  intro f g h
  have hn : Rises d ([] : List (ν × Nat)) := nofun
  exact (preorder_append_cancel hn hn (by rw [h])).1

end Forest

/-- A name in which there is no blank and no line end. -/
def Markup.IsWord (name : String) : Prop := ' ' ∉ name.toList ∧ '\n' ∉ name.toList

instance (name : String) : Decidable (IsWord name) := inferInstanceAs (Decidable (_ ∧ _))

/-- The local names of the elements, in document order. -/
def Markup.Node.elementNames (root : Node) : List String :=
  (root.skeleton.preorder 0).map Prod.fst

namespace Outline

/-- The outline of all elements. -/
def whole : Outline := ⟨[], none⟩

variable {root : Node}

theorem write_whole (h : root.isElement = true) :
    whole.write root =
      String.join ((root.skeleton.preorder 0).map fun x => lineOf x.2 x.1) := by
  have hk : ∀ n d, whole.leavesOut n d = false := fun _ _ => rfl
  rw [write_eq_join, shown_eq_spared h, Forest.spared_of_kept hk, Node.skeleton,
    Forest.preorder_map, List.map_map]
  rfl

/-- The lines of a text, each of which has an end of its own. -/
def lines (text : String) : List (List Char) := (text.toList.splitOn '\n').dropLast

/-- The name that stands on a line. -/
def nameOn (line : List Char) : String := String.ofList (line.dropWhile (· = ' '))

/-- The level that a line is indented to. -/
def levelOf (line : List Char) : Nat := (line.takeWhile (· = ' ')).length / 2

variable {xs : List (String × Nat)}

theorem lines_join (hw : ∀ x ∈ xs, IsWord x.1) :
    lines (String.join (xs.map fun x => lineOf x.2 x.1)) =
      xs.map fun x => List.replicate (2 * x.2) ' ' ++ x.1.toList := by
  have hs : (String.join (xs.map fun x => lineOf x.2 x.1)).toList.splitOn '\n' =
      (xs.map fun x => List.replicate (2 * x.2) ' ' ++ x.1.toList) ++ [[]] := by
    induction xs with
    | nil => rfl
    | cons x xs ih =>
      obtain ⟨⟨-, hn⟩, hw⟩ := List.forall_mem_cons.mp hw
      have hl : '\n' ∉ List.replicate (2 * x.2) ' ' ++ x.1.toList := by
        simp [hn]
      have he : (lineOf x.2 x.1).toList = List.replicate (2 * x.2) ' ' ++ x.1.toList ++ ['\n'] := by
        simp [lineOf]
      rw [List.map_cons, String.join_cons, String.toList_append, he, List.append_assoc,
        List.singleton_append, List.splitOn_append_cons_self_of_not_mem hl, ih hw]
      rfl
  rw [lines, hs, List.dropLast_concat]

theorem takeWhile_word {name : String} (hw : IsWord name) :
    name.toList.takeWhile (· = ' ') = [] ∧ name.toList.dropWhile (· = ' ') = name.toList := by
  have hb := hw.1
  cases hn : name.toList with
  | nil => exact ⟨rfl, rfl⟩
  | cons c cs =>
    have hc : c ≠ ' ' := by
      rintro rfl
      rw [hn] at hb
      exact hb List.mem_cons_self
    simp [hc]

theorem nameOn_line {name : String} (hw : IsWord name) (n : Nat) :
    nameOn (List.replicate n ' ' ++ name.toList) = name := by
  rw [nameOn, List.dropWhile_append_of_pos (by simp), (takeWhile_word hw).2, String.ofList_toList]

theorem levelOf_line {name : String} (hw : IsWord name) (d : Nat) :
    levelOf (List.replicate (2 * d) ' ' ++ name.toList) = d := by
  rw [levelOf, List.takeWhile_append_of_pos (by simp), (takeWhile_word hw).1]
  simp

/-- The names and depths of the elements are read back from the lines. -/
theorem read_write (h : root.isElement = true) (hw : ∀ name ∈ root.elementNames, IsWord name) :
    (lines (whole.write root)).map (fun l => (nameOn l, levelOf l)) = root.skeleton.preorder 0 := by
  have hw : ∀ x ∈ root.skeleton.preorder 0, IsWord x.1 := fun x hx =>
    hw x.1 (List.mem_map_of_mem hx)
  rw [write_whole h, lines_join hw, List.map_map]
  refine (List.map_congr_left fun x hx => ?_).trans (List.map_id _)
  simp [nameOn_line (hw x hx), levelOf_line (hw x hx)]

/-- Two documents, whose elements have names without blanks and line ends, have the same outline
exactly when their elements have the same names, in the same order and with the same nesting. -/
theorem write_whole_eq_iff (root₁ root₂ : Node) (h₁ : root₁.isElement = true)
    (h₂ : root₂.isElement = true) (hw₁ : ∀ name ∈ root₁.elementNames, IsWord name)
    (hw₂ : ∀ name ∈ root₂.elementNames, IsWord name) :
    whole.write root₁ = whole.write root₂ ↔ root₁.skeleton = root₂.skeleton := by
  constructor
  · intro h
    apply Forest.preorder_injective 0
    rw [← read_write h₁ hw₁, ← read_write h₂ hw₂, h]
  · intro h
    rw [write_whole h₁, write_whole h₂, h]

/-- An element without a qualifier and attributes. -/
def plain (name : String) (children : List Node) : Node := .element ⟨"", name⟩ [] children

theorem write_whole_eq_iff_nested :
    whole.write (plain "a" [plain "b" [.text "x"], plain "c" []]) ≠
      whole.write (plain "a" [plain "b" [plain "c" []]]) := by
  have h := write_whole_eq_iff (plain "a" [plain "b" [.text "x"], plain "c" []])
    (plain "a" [plain "b" [plain "c" []]]) rfl rfl (by decide) (by decide)
  intro he
  cases h.mp he

end Outline

end PullStream
