import PullStream.Proofs.Demand.Sieve
import PullStream.Stream.Consume

/-!
# Lists with keys

Two ways to keep one thing for each key of a list. `Sieve.firsts` keeps the first element of a key,
and `Stream.associate` the value that was given last. They leave the same keys, in the order in
which these come for the first time.
-/

set_option autoImplicit false

namespace PullStream

variable {α β κ : Type} [DecidableEq κ]

/-! ## First elements -/

namespace Sieve

variable {key : α → κ} {seen seen' : List κ} {xs : List α}

theorem firsts_sublist (key : α → κ) (seen : List κ) (xs : List α) :
    (firsts key seen xs).Sublist xs := by
  induction xs generalizing seen with
  | nil => exact .slnil
  | cons a xs ih =>
    rw [firsts]
    split
    · exact (ih seen).cons a
    · exact (ih (key a :: seen)).cons_cons a

/-- Of the keys that were seen only their presence counts. -/
theorem firsts_congr (h : ∀ k, k ∈ seen ↔ k ∈ seen') (xs : List α) :
    firsts key seen xs = firsts key seen' xs := by
  induction xs generalizing seen seen' with
  | nil => rfl
  | cons a xs ih =>
    have hc : ∀ k, k ∈ key a :: seen ↔ k ∈ key a :: seen' := by simp [h]
    simp only [firsts, h, ih h, ih hc]

theorem mem_map_firsts {k : κ} :
    k ∈ (firsts key seen xs).map key ↔ k ∉ seen ∧ k ∈ xs.map key := by
  induction xs generalizing seen with
  | nil => simp [firsts]
  | cons a xs ih =>
    rw [firsts]
    split
    · next ha =>
      have hk : k ∉ seen → k ≠ key a := fun hk he => hk (he ▸ ha)
      simp only [ih, List.map_cons, List.mem_cons]
      exact and_congr_right fun hs => (or_iff_right (hk hs)).symm
    · next ha =>
      by_cases hk : k = key a
      · subst hk
        simp [ha]
      · simp [ih, hk]

theorem nodup_map_firsts (key : α → κ) (seen : List κ) (xs : List α) :
    ((firsts key seen xs).map key).Nodup := by
  induction xs generalizing seen with
  | nil => exact List.nodup_nil
  | cons a xs ih =>
    rw [firsts]
    split
    · exact ih seen
    · refine List.nodup_cons.mpr ⟨fun hm => ?_, ih (key a :: seen)⟩
      exact (mem_map_firsts.mp hm).1 List.mem_cons_self

/-- To put elements into a set one after the other is to keep the first of its equals. -/
theorem foldl_insert_eq_firsts [DecidableEq α] (xs ys : List α) :
    xs.foldl (fun ys a => if a ∈ ys then ys else a :: ys) ys = (firsts id ys xs).reverse ++ ys := by
  induction xs generalizing ys with
  | nil => rfl
  | cons a xs ih =>
    rw [List.foldl_cons, ih, firsts, id]
    split
    · rfl
    · rw [List.reverse_cons, List.append_assoc]
      rfl

end Sieve

/-! ## Associations -/

namespace Stream

theorem lookup_associate_self (k : κ) (v : β) (m : List (κ × β)) :
    (associate k v m).lookup k = some v := by
  induction m with
  | nil => exact List.lookup_cons_self
  | cons x m ih =>
    obtain ⟨q, u⟩ := x
    by_cases hk : q = k
    · rw [associate, if_pos hk, List.lookup_cons_self]
    · have hb : (k == q) = false := beq_false_of_ne (Ne.symm hk)
      rw [associate, if_neg hk, List.lookup_cons, hb]
      exact ih

theorem lookup_associate_of_ne {k k' : κ} (h : k' ≠ k) (v : β) (m : List (κ × β)) :
    (associate k v m).lookup k' = m.lookup k' := by
  have hb : (k' == k) = false := beq_false_of_ne h
  induction m with
  | nil => rw [associate, List.lookup_cons, hb]
  | cons x m ih =>
    obtain ⟨q, u⟩ := x
    by_cases hk : q = k
    · rw [associate, if_pos hk, List.lookup_cons, List.lookup_cons, hk, hb]
    · rw [associate, if_neg hk, List.lookup_cons, List.lookup_cons, ih]

/-- A key that is there keeps its place, and a new one comes last. -/
theorem keys_associate (k : κ) (v : β) (m : List (κ × β)) :
    (associate k v m).map Prod.fst =
      if k ∈ m.map Prod.fst then m.map Prod.fst else m.map Prod.fst ++ [k] := by
  induction m with
  | nil => rfl
  | cons x m ih =>
    obtain ⟨q, u⟩ := x
    rw [associate]
    by_cases hk : q = k
    · simp [hk]
    · rw [if_neg hk, List.map_cons, ih]
      by_cases hm : k ∈ m.map Prod.fst <;> simp [hm, Ne.symm hk]

section Values

variable (key : α → κ) (value : α → β)

/-- The value of each element is put under its key. -/
def associations (m : List (κ × β)) (xs : List α) : List (κ × β) :=
  xs.foldl (fun m a => associate (key a) (value a) m) m

/-- The keys are those of the elements that come first. -/
theorem keys_associations (m : List (κ × β)) (xs : List α) :
    (associations key value m xs).map Prod.fst =
      m.map Prod.fst ++ (Sieve.firsts key (m.map Prod.fst) xs).map key := by
  induction xs generalizing m with
  | nil => simp [associations, Sieve.firsts]
  | cons a xs ih =>
    have ha : associations key value m (a :: xs) =
        associations key value (associate (key a) (value a) m) xs := rfl
    rw [ha, ih, keys_associate, Sieve.firsts]
    by_cases hk : key a ∈ m.map Prod.fst
    · rw [if_pos hk, if_pos hk]
    · have hc : ∀ k, k ∈ m.map Prod.fst ++ [key a] ↔ k ∈ key a :: m.map Prod.fst := by
        intro k
        rw [List.mem_append, List.mem_singleton, List.mem_cons, or_comm]
      rw [if_neg hk, if_neg hk, Sieve.firsts_congr hc, List.append_assoc]
      rfl

end Values

theorem mem_iff_lookup {m : List (κ × β)} (h : (m.map Prod.fst).Nodup) {k : κ} {v : β} :
    (k, v) ∈ m ↔ m.lookup k = some v := by
  induction m with
  | nil => simp
  | cons x m ih =>
    obtain ⟨q, u⟩ := x
    obtain ⟨hq, hm⟩ := List.nodup_cons.mp h
    rw [List.mem_cons, List.lookup_cons, ih hm]
    by_cases hk : k = q
    · subst hk
      have hn : m.lookup k ≠ some v := fun hl =>
        hq (List.mem_map.mpr ⟨(k, v), (ih hm).mpr hl, rfl⟩)
      simp [hn, eq_comm]
    · simp [hk, beq_false_of_ne hk]

end Stream

end PullStream
