import PullStream.Proofs.Independence.Overlooking
import PullStream.Nested
import PullStream.Tree

/-!
# Combinators that overlook a part of the world

No combinator makes a stream depend on more than the streams and callbacks that it is given, and
neither does a tree.
-/

set_option autoImplicit false

namespace PullStream

namespace Stream

variable {W α β κ ι : Type} {g : W → W}

section Combinators

variable {s : Stream W α}

theorem Overlooks.map (hs : s.Overlooks g) {f : α → Act W β} (hf : ∀ a, (f a).Overlooks g) :
    (s.map f).Overlooks g := by
  unfold Stream.map
  split
  · trivial
  · exact ⟨hf, hs⟩

theorem Overlooks.filter (hs : s.Overlooks g) {p : α → Act W Bool}
    (hp : ∀ a, (p a).Overlooks g) : (s.filter p).Overlooks g := by
  unfold Stream.filter
  split
  · trivial
  · exact ⟨hp, hs⟩

theorem Overlooks.filterMap (hs : s.Overlooks g) {f : α → Act W (Option β)}
    (hf : ∀ a, (f a).Overlooks g) : (s.filterMap f).Overlooks g := by
  unfold Stream.filterMap
  split
  · trivial
  · exact ⟨hf, hs⟩

theorem Overlooks.concat {t : Stream W α} (hs : s.Overlooks g) (ht : t.Overlooks g) :
    (s.concat t).Overlooks g := by
  unfold Stream.concat
  split
  · exact ht
  · split
    · exact hs
    · exact ⟨hs, ht⟩

theorem Overlooks.tail (hs : s.Overlooks g) (n : Nat) : (s.tail n).Overlooks g := by
  unfold Stream.tail
  split <;> exact hs

theorem Overlooks.limit (hs : s.Overlooks g) (n : Nat) : (s.limit n).Overlooks g := by
  unfold Stream.limit
  split
  · trivial
  · exact hs

theorem Overlooks.distinctBy [DecidableEq κ] (hs : s.Overlooks g) {key : α → Act W κ}
    (hk : ∀ a, (key a).Overlooks g) : (s.distinctBy key).Overlooks g := by
  unfold Stream.distinctBy
  split
  · trivial
  · exact ⟨hk, hs⟩

theorem Overlooks.excludeBy [DecidableEq κ] {other : Stream W α} (hs : s.Overlooks g)
    (ho : other.Overlooks g) {key : α → Act W κ} (hk : ∀ a, (key a).Overlooks g) :
    (s.excludeBy key other).Overlooks g := by
  unfold Stream.excludeBy
  split
  · exact hs
  · exact ⟨hk, ho, hs⟩

theorem Overlooks.flatten {book : ι → Stream W α} {s : Stream W ι} (hs : s.Overlooks g)
    (hb : ∀ i, (book i).Overlooks g) : (s.flatten book).Overlooks g := by
  unfold Stream.flatten
  split
  · trivial
  · exact ⟨hb, hs⟩

theorem overlooks_ofArray (xs : Array α) : (ofArray xs : Stream W α).Overlooks g := by
  unfold ofArray
  split <;> trivial

theorem overlooks_ofList (xs : List α) : (ofList xs : Stream W α).Overlooks g := by
  refine ⟨Act.overlooks_done xs, fun s w => ?_, fun _ h => nomatch h⟩
  cases s <;> rfl

theorem overlooks_ofOption (xs : Option (Array α)) : (ofOption xs : Stream W α).Overlooks g := by
  cases xs with
  | none => trivial
  | some xs => exact overlooks_ofArray xs

theorem overlooks_view (xs : Array α) : (view xs : Stream W α).Overlooks g := by
  unfold view
  split
  · trivial
  · exact overlooks_ofList _

end Combinators

section Nested

variable {s : Stream W (Nested ι α)}

theorem Overlooks.flat {book : ι → Stream W (Nested ι α)} (hs : s.Overlooks g)
    (hb : ∀ i, (book i).Overlooks g) (depth : Nat) : (s.flat book depth).Overlooks g := by
  unfold Stream.flat
  split
  · exact hs
  · split
    · trivial
    · refine ⟨fun level x => ?_, hb, hs⟩
      cases x <;> exact Act.overlooks_done _

theorem Overlooks.leaves {book : ι → Stream W (Nested ι α)} (hs : s.Overlooks g)
    (hb : ∀ i, (book i).Overlooks g) : (s.leaves book).Overlooks g := by
  refine ⟨fun level x => ?_, hb, hs⟩
  cases x <;> exact Act.overlooks_done _

theorem Overlooks.rename (hs : s.Overlooks g) (f : ι → κ) : (s.rename f).Overlooks g :=
  hs.map fun _ => Act.overlooks_done _

end Nested

end Stream

theorem TreeStream.overlooks_stream {W ν ι : Type} {g : W → W} {t : TreeStream W ν ι}
    (hc : ∀ n, (t.children n).Overlooks g) (hb : ∀ i, (t.book i).Overlooks g) :
    t.stream.Overlooks g := by
  refine ⟨fun _ n => (hc n).andThen fun _ => Act.overlooks_done _, hb, ?_⟩
  unfold TreeStream.top
  split
  · exact Stream.overlooks_ofList _
  · exact ⟨hc t.root, hb⟩

end PullStream
