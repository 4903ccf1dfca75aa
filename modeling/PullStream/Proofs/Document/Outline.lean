import PullStream.Outline
import PullStream.Proofs.Document.Elements

/-!
# What an outline shows

The walk that writes an outline decides at each element whether it goes on below it. What it shows is
a property of the elements themselves: whether an element has a line depends on the names of the
elements that it lies below and on their number. An element that the walk leaves out hides all that
lies below it, since whatever hides an element hides what lies deeper.
-/

set_option autoImplicit false

namespace PullStream

open Markup

namespace Outline

/-- There is a line for an element that lies below elements of these names. -/
def Shows (o : Outline) (above : List String) : Prop :=
  (∀ name ∈ above, name ∉ o.pruned) ∧ ∀ most ∈ o.maxDepth, above.length ≤ most

instance (o : Outline) (above : List String) : Decidable (o.Shows above) :=
  inferInstanceAs (Decidable (_ ∧ _))

variable {o : Outline}

theorem shows_nil : o.Shows [] :=
  ⟨fun _ h => absurd h List.not_mem_nil, fun _ _ => Nat.zero_le _⟩

theorem Shows.of_suffix {above inner : List String} (h : above <:+ inner) (hs : o.Shows inner) :
    o.Shows above :=
  ⟨fun name hn => hs.1 name (h.subset hn), fun most hm => Nat.le_trans h.length_le (hs.2 most hm)⟩

/-- The walk goes on below an element that is shown exactly when what lies there is shown. -/
theorem leavesOut_iff {above : List String} (h : o.Shows above) (n : Node) :
    o.leavesOut n above.length = true ↔ ¬ o.Shows (n.localName :: above) := by
  simp only [leavesOut, Shows, Bool.or_eq_true, Option.any_eq_true, decide_eq_true_eq,
    List.contains_iff_mem, List.mem_cons, forall_eq_or_imp, List.length_cons, Option.mem_def]
  constructor
  · rintro (⟨most, hm, hle⟩ | hp) ⟨⟨hn, -⟩, hd⟩
    · exact absurd (hd most hm) (by omega)
    · exact hn hp
  · intro hn
    refine Classical.byContradiction fun hc => hn ⟨⟨fun hp => hc (.inr hp), h.1⟩, fun most hm => ?_⟩
    have hlt : ¬ most ≤ above.length := fun hle => hc (.inl ⟨most, hm, hle⟩)
    omega

/-- Nothing is shown below what is not shown. -/
theorem filter_placed_hidden {above : List String} (h : ¬ o.Shows above) (f : Forest String) :
    (f.placed above).filter (o.Shows ·.1) = [] := by
  rw [List.filter_eq_nil_iff]
  intro x hx hs
  exact h (Shows.of_suffix (Forest.suffix_of_placed hx) (of_decide_eq_true hs))

/-- What the walk does not leave out are the elements that are shown. -/
theorem spared_shown (f : Forest Node) {above : List String} (h : o.Shows above) :
    (f.spared o.leavesOut above.length).map (fun x => (x.2, x.1.localName)) =
      (((f.map Node.localName).placed above).filter (o.Shows ·.1)).map
        fun x => (x.1.length, x.2) := by
  induction f generalizing above with
  | nil => rfl
  | cons n below later ihb ihl =>
    have hd : decide (o.Shows above) = true := decide_eq_true h
    simp only [Forest.spared, Forest.map, Forest.placed, List.map_cons, List.map_append,
      List.filter_cons, List.filter_append, hd, if_true]
    rw [← ihl h]
    by_cases hn : o.Shows (n.localName :: above)
    · have hl : o.leavesOut n above.length = false :=
        Bool.eq_false_iff.mpr fun hl => (leavesOut_iff h n).mp hl hn
      rw [hl, ← ihb hn]
      rfl
    · rw [(leavesOut_iff h n).mpr hn, filter_placed_hidden hn]
      rfl

/-- The elements shown are those that the walk does not leave out. -/
theorem shown_eq_spared {root : Node} (h : root.isElement = true) :
    o.shown root = ((Node.forest [root]).spared o.leavesOut 0).toArray := by
  have hw := Node.walkOn_top (W := Unit) o.leavesOut root () h
  have hc : root.elements.cursor () = (.ok ⟨Node.top root [root], false, 2⟩, ()) := rfl
  unfold Node.walkOn at hw
  simp only [shown, Run.answer?, hc, hw]
  rfl

/-- The line of an element that lies `depth` levels down. -/
def lineOf (depth : Nat) (name : String) : String :=
  String.ofList (List.replicate (2 * depth) ' ') ++ name ++ "\n"

theorem write_eq_join (root : Node) :
    o.write root =
      String.join ((o.shown root).toList.map fun x => lineOf x.2 x.1.localName) := by
  rw [write, String.join, List.foldl_map, ← Array.foldl_toList]
  rfl

/-- An outline is a line for each element that none of the pruned names and no limit hides, in
document order, and depends on nothing else in the document. -/
theorem write_lists_shown (o : Outline) (name : QName) (attributes : List Attribute)
    (children : List Node) :
    let root := Node.element name attributes children
    (o.write root = String.join (((root.skeleton.placed []).filter (o.Shows ·.1)).map
      fun x => lineOf x.1.length x.2)) ∧
    ∀ other : Node, other.skeleton = root.skeleton → o.write other = o.write root := by
  have hw : ∀ root : Node, root.isElement = true →
      o.write root = String.join (((root.skeleton.placed []).filter (o.Shows ·.1)).map
        fun x => lineOf x.1.length x.2) := by
    intro root h
    rw [write_eq_join, shown_eq_spared h]
    have hs := congrArg (List.map fun x => lineOf x.1 x.2)
      (spared_shown (Node.forest [root]) (shows_nil (o := o)))
    simpa [Node.skeleton, Function.comp_def] using congrArg String.join hs
  refine ⟨hw _ rfl, fun other h => ?_⟩
  have he : other.isElement = true := by
    cases other with
    | element => rfl
    | _ => cases h
  rw [hw other he, hw _ rfl, h]

-- a pruned element has its line also where no deeper one would have
example : Outline.write ⟨["b"], some 1⟩ (.element ⟨"", "a"⟩ []
      [.text "t", .element ⟨"x", "b"⟩ [] [.element ⟨"", "a"⟩ [] []], .element ⟨"", "c"⟩ [] []]) =
    "a\n  b\n  c\n" := by
  decide

end Outline

end PullStream
