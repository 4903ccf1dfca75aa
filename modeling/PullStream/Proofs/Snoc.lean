/-!
# Logs that grow at their end

One more entry is written behind the others. An entry keeps its place when more is written, and a
beginning of the longer log that ends with an entry ends with the new one or was there before.
-/

set_option autoImplicit false

namespace PullStream

variable {α : Type} {l : List α} {a b : α} {i : Nat}

theorem getElem?_snoc : (l ++ [a])[i]? = some b ↔ l[i]? = some b ∨ i = l.length ∧ a = b := by
  grind

theorem getElem?_kept (h : l[i]? = some b) (es : List α) : (l ++ es)[i]? = some b := by
  rw [List.getElem?_append_left (List.getElem?_eq_some_iff.mp h).1, h]

theorem snoc_prefix_snoc {before : List α} :
    before ++ [b] <+: l ++ [a] ↔ before = l ∧ b = a ∨ before ++ [b] <+: l := by
  rw [List.prefix_concat_iff, List.append_singleton_inj]

end PullStream
