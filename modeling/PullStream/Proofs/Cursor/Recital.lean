import PullStream.Proofs.Cursor.Moves
import PullStream.Stream.Consume

/-!
# Listings that come to their end in time

A cursor that gives the same elements in every world, and changes none, recites them. The number of
moves until the end is counted, so that a run with a fuel of its own is seen to come back.
-/

set_option autoImplicit false

namespace PullStream

variable {W α β ρ : Type}

namespace Cursor

/-- Within so many moves the elements are given and the end is reported. -/
inductive Recites : Nat → Cursor W α → List α → Prop
  | done {n : Nat} {c d : Cursor W α} (h : ∀ w, c.tick w = (.done, d, w)) : Recites (n + 1) c []
  | silent {n : Nat} {c d : Cursor W α} {as : List α} (h : ∀ w, c.tick w = (.silent, d, w))
      (hd : Recites n d as) : Recites (n + 1) c as
  | yield {n : Nat} {a : α} {c d : Cursor W α} {as : List α}
      (h : ∀ w, c.tick w = (.yield a, d, w)) (hd : Recites n d as) : Recites (n + 1) c (a :: as)

section Recites

variable {m n : Nat} {c : Cursor W α} {as : List α}

theorem Recites.mono (h : Recites n c as) (hm : n ≤ m) : Recites m c as := by
  induction h generalizing m with
  | done h =>
    obtain ⟨m, rfl⟩ := Nat.exists_eq_add_of_le' (Nat.le_of_add_left_le hm)
    exact .done h
  | silent h _ ih =>
    obtain ⟨m, rfl⟩ := Nat.exists_eq_add_of_le' (Nat.le_of_add_left_le hm)
    exact .silent h (ih (Nat.le_of_succ_le_succ hm))
  | yield h _ ih =>
    obtain ⟨m, rfl⟩ := Nat.exists_eq_add_of_le' (Nat.le_of_add_left_le hm)
    exact .yield h (ih (Nat.le_of_succ_le_succ hm))

theorem Recites.map (h : Recites n c as) (f : α → β) :
    Recites n (.map (fun a => pure (f a)) c) (as.map f) := by
  induction h with
  | done h => exact .done fun w => by rw [tick_map, h]; rfl
  | silent h _ ih => exact .silent (fun w => by rw [tick_map, h]; rfl) ih
  | yield h _ ih => exact .yield (fun w => by rw [tick_map, h]; rfl) ih

/-- Of the elements that are equal to one seen before nothing is given. -/
theorem Recites.distinct [eq : DecidableEq α] (h : Recites n c as) (seen : List α) :
    Recites n (.distinct eq Act.done seen c) (as.filter (· ∉ seen)).eraseDups := by
  induction h generalizing seen with
  | done h => exact .done fun w => by rw [tick_distinct, h]; rfl
  | silent h _ ih => exact .silent (fun w => by rw [tick_distinct, h]; rfl) (ih seen)
  | @yield n a c d as h _ ih =>
    by_cases ha : a ∈ seen
    · rw [List.filter_cons_of_neg (by simpa using ha)]
      refine .silent (fun w => ?_) (ih seen)
      simp only [tick_distinct, h, Moves.relay, Act.done, ha, if_true]
    · have hf : (as.filter (· ∉ seen)).filter (fun b => !b == a) =
          as.filter (· ∉ a :: seen) := by
        rw [List.filter_filter]
        refine List.filter_congr fun b _ => ?_
        by_cases hb : b = a <;> simp [hb]
      rw [List.filter_cons_of_pos (by simpa using ha), List.eraseDups_cons, hf]
      refine .yield (fun w => ?_) (ih (a :: seen))
      simp only [tick_distinct, h, Moves.relay, Act.done, ha, if_false]

/-- A visitor that never answers and changes nothing is shown all elements. -/
theorem Recites.consume (h : Recites n c as) {visit : β → α → Run W (Verdict β ρ)} {f : β → α → β}
    (hv : ∀ b a w, visit b a w = some (.ok (.more (f b a)), w)) (finish : β → ρ) (b : β) (w : W) :
    ∃ d, c.consume visit finish n b w = some (.ok (finish (as.foldl f b)), d, w) := by
  induction h generalizing b with
  | done h => exact ⟨_, by rw [Cursor.consume, h]; rfl⟩
  | silent h _ ih =>
    obtain ⟨d, hd⟩ := ih b
    exact ⟨d, by rw [Cursor.consume, h]; exact hd⟩
  | @yield n a c d as h _ ih =>
    obtain ⟨d, hd⟩ := ih (f b a)
    refine ⟨d, ?_⟩
    rw [Cursor.consume, h]
    simp only [hv]
    exact hd

end Recites

end Cursor

namespace Stream

/-- Each session recites the elements. -/
def Recites (n : Nat) (s : Stream W α) (as : List α) : Prop :=
  ∀ w, ∃ c, s.cursor w = (.ok c, w) ∧ c.Recites n as

variable {n : Nat} {s : Stream W α} {as : List α}

theorem Recites.mapping (h : s.Recites n as) (f : α → β) :
    (mapping (fun a => pure (f a)) s).Recites n (as.map f) := by
  intro w
  obtain ⟨c, hc, hr⟩ := h w
  refine ⟨_, ?_, hr.map f⟩
  simp only [cursor, Act.andThen, hc]
  rfl

theorem Recites.deduplicating [eq : DecidableEq α] (h : s.Recites n as) :
    (deduplicating eq Act.done s).Recites n as.eraseDups := by
  intro w
  obtain ⟨c, hc, hr⟩ := h w
  have hd := hr.distinct []
  rw [List.filter_eq_self.mpr (by simp)] at hd
  refine ⟨_, ?_, hd⟩
  simp only [cursor, Act.andThen, hc]
  rfl

theorem Recites.session (h : s.Recites n as) {visit : β → α → Run W (Verdict β ρ)} {f : β → α → β}
    (hv : ∀ b a w, visit b a w = some (.ok (.more (f b a)), w)) (finish : β → ρ) (b : β) (w : W) :
    s.session (Cursor.consume visit finish n b) w = some (.ok (finish (as.foldl f b)), w) := by
  obtain ⟨c, hc, hr⟩ := h w
  obtain ⟨d, hd⟩ := hr.consume hv finish b w
  rw [Stream.session, hc]
  exact congrArg (Option.map _) hd

end Stream

end PullStream
