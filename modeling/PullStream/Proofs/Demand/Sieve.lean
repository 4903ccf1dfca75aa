import PullStream.Proofs.Cursor.Moves
import Mathlib.Logic.Relation

/-!
# Sieves

A sieve is a stage that takes elements from the cursor inside it one at a time and, for each, yields
one element or none. Mapping, the filters, keeping first keys, leaving out a number of elements and
capping are sieves; what each of them makes of a list is a function on lists. To the world a sieve
does nothing but what stays aside from the source of the elements.
-/

set_option autoImplicit false

namespace PullStream

open Relation

variable {W κ α β γ : Type} {aside : W → W → Prop}

/-- A callback that never panics, answers by its argument alone and leaves the world as it is, up to
changes that stay aside. -/
structure Total (aside : W → W → Prop) (β α : Type) where
  run : β → Act W α
  value : β → α
  fixed : ∀ b w, (run b w).1 = .ok (value b)
  discreet : ∀ b w, ReflGen aside w (run b w).2

theorem Total.run_eq (f : Total aside β α) (b : β) (w : W) :
    ∃ v, f.run b w = (.ok (f.value b), v) ∧ ReflGen aside w v :=
  ⟨(f.run b w).2, by rw [← f.fixed b w], f.discreet b w⟩

/-- The first cursor is what the stages of the second one are put around. -/
inductive Cursor.Over (c : Cursor W β) : {α : Type} → Cursor W α → Prop
  | here : Over c c
  | map {α γ : Type} {f : α → Act W γ} {d : Cursor W α} (h : Over c d) : Over c (.map f d)
  | filter {α : Type} {p : α → Act W Bool} {d : Cursor W α} (h : Over c d) : Over c (.filter p d)
  | filterMap {α γ : Type} {f : α → Act W (Option γ)} {d : Cursor W α} (h : Over c d) :
      Over c (.filterMap f d)
  | tail {α : Type} {n : Nat} {d : Cursor W α} (h : Over c d) : Over c (.tail n d)
  | limit {α : Type} {n : Nat} {d : Cursor W α} (h : Over c d) : Over c (.limit n d)
  | distinct {κ α : Type} {eq : DecidableEq κ} {key : α → Act W κ} {seen : List κ}
      {d : Cursor W α} (h : Over c d) : Over c (.distinct eq key seen d)
  | excludeFresh {κ α : Type} {eq : DecidableEq κ} {key : α → Act W κ} {other : Stream W α}
      {d : Cursor W α} (h : Over c d) : Over c (.excludeFresh eq key other d)
  | excludeDrain {κ α : Type} {eq : DecidableEq κ} {key : α → Act W κ} {other : Stream W α}
      {e : Cursor W α} {keys : List κ} {d : Cursor W α} (h : Over c d) :
      Over c (.excludeDrain eq key other e keys d)
  | excludeReady {κ α : Type} {eq : DecidableEq κ} {key : α → Act W κ} {keys : List κ}
      {d : Cursor W α} (h : Over c d) : Over c (.excludeReady eq key keys d)

/-- The move that shows an element, or none. -/
def Move.ofOption : Option α → Move α
  | some a => .yield a
  | none => .silent

/-- A stage with a state. A closed sieve takes nothing any more; a careful one is only put around
cursors without a shortcut. -/
structure Sieve (aside : W → W → Prop) (α γ : Type) : Type 1 where
  σ : Type
  around : σ → Cursor W α → Cursor W γ
  closed : σ → Bool
  decide : σ → α → Option γ × σ
  careful : Bool
  not_jumps : ∀ s c, ¬ (around s c).Jumps
  covers : ∀ s c {β : Type} {b : Cursor W β}, Cursor.Over b c → Cursor.Over b (around s c)
  stops : ∀ s c w, closed s = true → ((around s c).tick w).1 = .done
  silent : ∀ s c w d v, closed s = false → (careful = true → ¬ c.Jumps) →
    c.tick w = (.silent, d, v) → (around s c).tick w = (.silent, around s d, v)
  yield : ∀ s c w a d v, closed s = false → (careful = true → ¬ c.Jumps) →
    c.tick w = (.yield a, d, v) → ∃ u, ReflGen aside v u ∧ (around s c).tick w =
      (Move.ofOption (decide s a).1, around (decide s a).2 d, u)
  done : ∀ s c w d v, closed s = false → (careful = true → ¬ c.Jumps) →
    c.tick w = (.done, d, v) → ((around s c).tick w).1 = .done

namespace Sieve

/-- What a sieve makes of a list. -/
def run (S : Sieve aside α γ) : S.σ → List α → List γ
  | _, [] => []
  | s, a :: l =>
    if S.closed s then [] else (S.decide s a).1.toList ++ S.run (S.decide s a).2 l

theorem run_closed (S : Sieve aside α γ) {s : S.σ} (h : S.closed s = true) (l : List α) :
    S.run s l = [] := by
  cases l <;> simp [run, h]

theorem run_mono (S : Sieve aside α γ) (s : S.σ) {l m : List α} (h : l <+: m) :
    S.run s l <+: S.run s m := by
  induction l generalizing s m with
  | nil => exact List.nil_prefix
  | cons a l ih =>
    obtain ⟨r, rfl⟩ := h
    simp only [List.cons_append, run]
    split
    · exact List.prefix_refl []
    · exact (List.prefix_append_right_inj _).mpr (ih _ (List.prefix_append l r))

open Moves Cursor

/-- The stages that hand on every move but an element. -/
def relaying {σ : Type} (around : σ → Cursor W α → Cursor W γ)
    (onYield : σ → α → Cursor W α → W → Move γ × Cursor W γ × W) (decide : σ → α → Option γ × σ)
    (ht : ∀ s c w, (around s c).tick w = relay (around s) (onYield s) (c.tick w))
    (hy : ∀ s a d v, ∃ u, ReflGen aside v u ∧ onYield s a d v =
      (.ofOption (decide s a).1, around (decide s a).2 d, u))
    (hj : ∀ s c, ¬ (around s c).Jumps)
    (ho : ∀ s c {β : Type} {b : Cursor W β}, Over b c → Over b (around s c)) :
    Sieve aside α γ where
  σ := σ
  around := around
  closed _ := false
  decide := decide
  careful := false
  not_jumps := hj
  covers := ho
  stops := nofun
  silent s c w d v _ _ h := by
    rw [ht, h]
    rfl
  yield s c w a d v _ _ h := by
    rw [ht, h]
    exact hy s a d v
  done s c w d v _ _ h := by
    rw [ht, h]
    rfl

def map (f : Total aside α γ) : Sieve aside α γ :=
  relaying (fun _ : Unit => .map f.run) _ (fun s a => (some (f.value a), s)) (fun _ => tick_map f.run)
    (fun s a d v => by
      obtain ⟨u, hu, hv⟩ := f.run_eq a v
      rw [hu]
      exact ⟨u, hv, rfl⟩)
    (fun _ _ => id) fun _ _ _ _ h => .map h

def filterMap (f : Total aside α (Option γ)) : Sieve aside α γ :=
  relaying (fun _ : Unit => .filterMap f.run) _ (fun s a => (f.value a, s))
    (fun _ => tick_filterMap f.run)
    (fun s a d v => by
      obtain ⟨u, hu, hv⟩ := f.run_eq a v
      rw [hu]
      cases f.value a <;> exact ⟨u, hv, rfl⟩)
    (fun _ _ => id) fun _ _ _ _ h => .filterMap h

def filter (p : Total aside α Bool) : Sieve aside α α :=
  relaying (fun _ : Unit => .filter p.run) _ (fun s a => (if p.value a then some a else none, s))
    (fun _ => tick_filter p.run)
    (fun s a d v => by
      obtain ⟨u, hu, hv⟩ := p.run_eq a v
      rw [hu]
      cases p.value a <;> exact ⟨u, hv, rfl⟩)
    (fun _ _ => id) fun _ _ _ _ h => .filter h

/-- The state is the keys seen so far. -/
def distinct [eq : DecidableEq κ] (key : Total aside α κ) : Sieve aside α α :=
  relaying (fun seen => .distinct eq key.run seen) _
    (fun seen a => if key.value a ∈ seen then (none, seen) else (some a, key.value a :: seen))
    (fun seen => tick_distinct eq key.run seen)
    (fun seen a d v => by
      obtain ⟨u, hu, hv⟩ := key.run_eq a v
      refine ⟨u, hv, ?_⟩
      rw [hu]
      by_cases hk : key.value a ∈ seen <;> simp only [hk, if_true, if_false] <;> rfl)
    (fun _ _ => id) fun _ _ _ _ h => .distinct h

/-- The state is the keys to leave out. -/
def without [eq : DecidableEq κ] (key : Total aside α κ) : Sieve aside α α :=
  relaying (fun keys => .excludeReady eq key.run keys) _
    (fun keys a => (if key.value a ∈ keys then none else some a, keys))
    (fun keys => tick_excludeReady eq key.run keys)
    (fun keys a d v => by
      obtain ⟨u, hu, hv⟩ := key.run_eq a v
      refine ⟨u, hv, ?_⟩
      rw [hu]
      by_cases hk : key.value a ∈ keys <;> simp only [hk, if_true, if_false] <;> rfl)
    (fun _ _ => id) fun _ _ _ _ h => .excludeReady h

/-- The state is how many elements may still pass. -/
def limit : Sieve aside α α where
  σ := Nat
  around := .limit
  closed n := n == 0
  decide n a := (some a, n - 1)
  careful := false
  not_jumps _ _ := id
  covers _ _ _ _ h := .limit h
  stops n c w h := by
    obtain rfl : n = 0 := by simpa using h
    rfl
  silent n c w d v h _ ht := by
    obtain ⟨n, rfl⟩ : ∃ m, n = m + 1 := Nat.exists_eq_succ_of_ne_zero (by simpa using h)
    rw [tick_limit_succ, ht]
  yield n c w a d v h _ ht := by
    obtain ⟨n, rfl⟩ : ∃ m, n = m + 1 := Nat.exists_eq_succ_of_ne_zero (by simpa using h)
    rw [tick_limit_succ, ht]
    exact ⟨v, .refl, rfl⟩
  done n c w d v h _ ht := by
    obtain ⟨n, rfl⟩ : ∃ m, n = m + 1 := Nat.exists_eq_succ_of_ne_zero (by simpa using h)
    rw [tick_limit_succ, ht]

/-- The state is how many elements are still to be left out. Around a cursor that leaves elements
out by stepping, each of them is one move. -/
def tail : Sieve aside α α where
  σ := Nat
  around := .tail
  closed _ := false
  decide n a := (if n = 0 then some a else none, n - 1)
  careful := true
  not_jumps n _ := by cases n <;> exact id
  covers _ _ _ _ h := .tail h
  stops := nofun
  silent n c w d v _ hj ht := by
    cases n with
    | zero =>
      rw [tick_tail_zero, ht]
      rfl
    | succ n =>
      rw [tick_tail_succ, skip_eq_skipBySteps (hj rfl), skipBySteps, ht]
  yield n c w a d v _ hj ht := by
    cases n with
    | zero =>
      rw [tick_tail_zero, ht]
      exact ⟨v, .refl, rfl⟩
    | succ n =>
      rw [tick_tail_succ, skip_eq_skipBySteps (hj rfl), skipBySteps, ht]
      by_cases hn : n = 0
      · subst hn
        exact ⟨v, .refl, rfl⟩
      · simp only [hn, if_false]
        exact ⟨v, .refl, rfl⟩
  done n c w d v _ hj ht := by
    cases n with
    | zero =>
      rw [tick_tail_zero, ht]
      rfl
    | succ n =>
      rw [tick_tail_succ, skip_eq_skipBySteps (hj rfl), skipBySteps, ht]

/-- The first element of each key that is not among those already seen. -/
def firsts [DecidableEq κ] (key : α → κ) : List κ → List α → List α
  | _, [] => []
  | seen, a :: l =>
    if key a ∈ seen then firsts key seen l else a :: firsts key (key a :: seen) l

theorem run_map (f : Total aside α γ) (l : List α) : (map f).run () l = l.map f.value := by
  induction l with
  | nil => rfl
  | cons a l ih => exact congrArg (f.value a :: ·) ih

theorem run_filterMap (f : Total aside α (Option γ)) (l : List α) :
    (filterMap f).run () l = l.filterMap f.value := by
  induction l with
  | nil => rfl
  | cons a l ih =>
    have hr : (filterMap f).run () (a :: l) = (f.value a).toList ++ (filterMap f).run () l := rfl
    rw [hr, ih, List.filterMap_cons]
    cases f.value a <;> rfl

theorem run_filter (p : Total aside α Bool) (l : List α) : (filter p).run () l = l.filter p.value := by
  induction l with
  | nil => rfl
  | cons a l ih =>
    have hr : (filter p).run () (a :: l) =
        (if p.value a then some a else none).toList ++ (filter p).run () l := rfl
    rw [hr, ih, List.filter_cons]
    cases p.value a <;> rfl

theorem run_distinct [DecidableEq κ] (key : Total aside α κ) (seen : List κ) (l : List α) :
    (distinct key).run seen l = firsts key.value seen l := by
  induction l generalizing seen with
  | nil => rfl
  | cons a l ih =>
    let r : Option α × List κ :=
      if key.value a ∈ seen then (none, seen) else (some a, key.value a :: seen)
    have hr : (distinct key).run seen (a :: l) = r.1.toList ++ (distinct key).run r.2 l := rfl
    rw [hr, firsts]
    by_cases hk : key.value a ∈ seen
    · simp only [r, hk, if_true]
      exact ih seen
    · simp only [r, hk, if_false]
      exact congrArg (a :: ·) (ih (key.value a :: seen))

theorem run_without [DecidableEq κ] (key : Total aside α κ) (keys : List κ) (l : List α) :
    (without key).run keys l = l.filter fun a => key.value a ∉ keys := by
  induction l with
  | nil => rfl
  | cons a l ih =>
    have hr : (without key).run keys (a :: l) =
        (if key.value a ∈ keys then none else some a).toList ++ (without key).run keys l := rfl
    rw [hr, ih, List.filter_cons]
    by_cases hk : key.value a ∈ keys <;> simp [hk]

theorem run_limit (n : Nat) (l : List α) : (limit : Sieve aside α α).run n l = l.take n := by
  induction l generalizing n with
  | nil => exact List.take_nil.symm
  | cons a l ih =>
    cases n with
    | zero => rfl
    | succ n => exact congrArg (a :: ·) (ih n)

theorem run_tail (n : Nat) (l : List α) : (tail : Sieve aside α α).run n l = l.drop n := by
  induction l generalizing n with
  | nil => exact List.drop_nil.symm
  | cons a l ih =>
    cases n with
    | zero => exact congrArg (a :: ·) (ih 0)
    | succ n => exact ih n

end Sieve

end PullStream
