import PullStream.Proofs.Composition.Stage
import PullStream.Proofs.Supply

/-!
# Outcomes of combinators

`Stream.Steady` is what a stream has to offer to every combinator: its cursors open, have the given
outcomes, and leave elements out by moves. Each combinator keeps it, whatever it settles at once
because a stream is known to be empty.
-/

set_option autoImplicit false

namespace PullStream.Stream

open Cursor

variable {W ι κ α β : Type}

section KnownEmpty

variable (s : Stream W α)

/-- A stage that is left away from nothing is itself never known to be empty. -/
theorem knownEmpty_stage {t : Stream W β} (ht : t.knownEmpty = false) :
    (if s.knownEmpty then empty else t).knownEmpty = s.knownEmpty := by
  cases s.knownEmpty
  · exact ht
  · rfl

theorem knownEmpty_same {t : Stream W α} {p : Bool} (ht : t.knownEmpty = false) :
    (if p || s.knownEmpty then s else t).knownEmpty = s.knownEmpty := by
  cases h : s.knownEmpty <;> cases p <;> simp [h, ht]

@[simp] theorem knownEmpty_map (f : α → Act W β) : (s.map f).knownEmpty = s.knownEmpty :=
  knownEmpty_stage s rfl

@[simp] theorem knownEmpty_filter (p : α → Act W Bool) :
    (s.filter p).knownEmpty = s.knownEmpty :=
  knownEmpty_stage s rfl

@[simp] theorem knownEmpty_filterMap (f : α → Act W (Option β)) :
    (s.filterMap f).knownEmpty = s.knownEmpty :=
  knownEmpty_stage s rfl

@[simp] theorem knownEmpty_distinctBy [DecidableEq κ] (key : α → Act W κ) :
    (s.distinctBy key).knownEmpty = s.knownEmpty :=
  knownEmpty_stage s rfl

@[simp] theorem knownEmpty_flatten {s : Stream W ι} (book : ι → Stream W α) :
    (s.flatten book).knownEmpty = s.knownEmpty :=
  knownEmpty_stage s rfl

@[simp] theorem knownEmpty_flat {s : Stream W (Nested ι α)} (book : ι → Stream W (Nested ι α))
    (depth : Nat) : (s.flat book depth).knownEmpty = s.knownEmpty := by
  unfold flat
  split
  · rfl
  · exact knownEmpty_stage s rfl

@[simp] theorem knownEmpty_tail (n : Nat) : (s.tail n).knownEmpty = s.knownEmpty :=
  knownEmpty_same s rfl

@[simp] theorem knownEmpty_excludeBy [DecidableEq κ] (key : α → Act W κ) (other : Stream W α) :
    (s.excludeBy key other).knownEmpty = s.knownEmpty := by
  unfold excludeBy
  rw [Bool.or_comm]
  exact knownEmpty_same s rfl

@[simp] theorem knownEmpty_limit (n : Nat) :
    (s.limit n).knownEmpty = (n == 0 || s.knownEmpty) := by
  unfold limit
  by_cases hn : n = 0
  · subst hn
    rfl
  · simp only [hn, decide_false, Bool.false_or, beq_eq_false_iff_ne.mpr hn]
    exact knownEmpty_stage s rfl

@[simp] theorem knownEmpty_concat (later : Stream W α) :
    (s.concat later).knownEmpty = (s.knownEmpty && later.knownEmpty) := by
  unfold concat
  by_cases h : s.knownEmpty = true
  · simp [h]
  · by_cases hl : later.knownEmpty = true
    · simp [h, hl]
    · simp only [h, hl, Bool.false_eq_true, if_false, Bool.and_false]
      rfl

end KnownEmpty

theorem eq_empty {s : Stream W α} (h : s.knownEmpty = true) : s = .empty := by
  cases s with
  | empty => rfl
  | _ => cases h

theorem Plays.eq_nil {s : Stream W α} {os : List (Outcome α)} (h : s.Plays os)
    (hk : s.knownEmpty = true) (w : W) : os = [] := by
  obtain ⟨c, v, hc, hp⟩ := h w
  rw [eq_empty hk] at hc
  cases hc
  exact hp.met w

def Steady (s : Stream W α) (os : List (Outcome α)) : Prop :=
  ∀ w, ∃ c v, s.cursor w = (.ok c, v) ∧ c.Plays os ∧ c.Strides

variable {s : Stream W α} {os : List (Outcome α)}

theorem Steady.plays (h : s.Steady os) : s.Plays os := by
  intro w
  obtain ⟨c, v, hc, hp, -⟩ := h w
  exact ⟨c, v, hc, hp⟩

theorem steady_empty : (empty : Stream W α).Steady [] :=
  fun w => ⟨.empty, w, rfl, .of_met fun _ => rfl, trivial⟩

/-- What makes nothing of nothing can be left away from a stream that is known to be empty. -/
theorem Steady.of_knownEmpty (h : s.Steady os) (hk : s.knownEmpty = true)
    (f : List (Outcome α) → List (Outcome β)) (hf : f [] = []) :
    (empty : Stream W β).Steady (f os) := by
  intro w
  rw [h.plays.eq_nil hk w, hf]
  exact steady_empty w

/-- A stage is added to every cursor of a stream. -/
theorem Steady.stage {t : Stream W β} {os' : List (Outcome β)} (h : s.Steady os)
    (around : Cursor W α → Cursor W β)
    (ht : t.cursor = s.cursor.andThen fun c => Act.done (around c))
    (hp : ∀ c : Cursor W α, c.Plays os → c.Strides → (around c).Plays os')
    (hs : ∀ c : Cursor W α, c.Strides → (around c).Strides) : t.Steady os' := by
  intro w
  obtain ⟨c, v, hc, hcp, hcs⟩ := h w
  refine ⟨around c, v, ?_, hp c hcp hcs, hs c hcs⟩
  simp only [ht, Act.andThen, hc, Act.done]

theorem Steady.map (h : s.Steady os) (f : Callback W α β) :
    (s.map f.run).Steady (Outcome.map f.answer os) := by
  unfold Stream.map
  split
  · next hk => exact h.of_knownEmpty hk _ rfl
  · exact h.stage (.map f.run) rfl (fun c hc _ => hc.map f) fun _ _ => trivial

theorem Steady.filter (h : s.Steady os) (p : Callback W α Bool) :
    (s.filter p.run).Steady (Outcome.filter p.answer os) := by
  unfold Stream.filter
  split
  · next hk => exact h.of_knownEmpty hk _ rfl
  · exact h.stage (.filter p.run) rfl (fun c hc _ => hc.filter p) fun _ _ => trivial

theorem Steady.filterMap (h : s.Steady os) (f : Callback W α (Option β)) :
    (s.filterMap f.run).Steady (Outcome.choose f.answer os) := by
  unfold Stream.filterMap
  split
  · next hk => exact h.of_knownEmpty hk _ rfl
  · exact h.stage (.filterMap f.run) rfl (fun c hc _ => hc.filterMap f) fun _ _ => trivial

theorem Steady.distinctBy [DecidableEq κ] (h : s.Steady os) (key : Callback W α κ) :
    (s.distinctBy key.run).Steady (Outcome.distinct key.answer [] os) := by
  unfold Stream.distinctBy
  split
  · next hk => exact h.of_knownEmpty hk _ rfl
  · exact h.stage (.distinct _ key.run []) rfl (fun c hc _ => hc.distinct key []) fun _ _ => trivial

/-- To exclude the keys of a stream that is known to be empty is to leave out nothing, and asks for
no key. -/
theorem Steady.excludeBy [DecidableEq κ] (h : s.Steady os) (key : Callback W α κ)
    {other : Stream W α} {os' : List (Outcome α)} (ho : other.Steady os')
    (hk : ∀ o ∈ os', ∃ b k, o = .yield b ∧ key.answer b = .ok k) :
    (s.excludeBy key.run other).Steady (if other.knownEmpty then os
      else Outcome.without key.answer (Outcome.keys key.answer os') os) := by
  unfold Stream.excludeBy
  cases hs : s.knownEmpty with
  | true =>
    intro w
    have hw := h w
    rw [h.plays.eq_nil hs w] at hw ⊢
    have hn : (if other.knownEmpty then []
        else Outcome.without key.answer (Outcome.keys key.answer os') []) = [] := by
      split <;> rfl
    rw [hn]
    exact hw
  | false =>
    cases hn : other.knownEmpty with
    | true => exact h
    | false =>
      exact h.stage (.excludeFresh _ key.run other) rfl
        (fun c hc _ => hc.excludeFresh ho.plays hk) fun _ _ => trivial

theorem Steady.concat (h : s.Steady os) {later : Stream W α} {os' : List (Outcome α)}
    (hl : later.Steady os') : (s.concat later).Steady (os ++ os') := by
  unfold Stream.concat
  cases hs : s.knownEmpty with
  | true =>
    intro w
    rw [h.plays.eq_nil hs w]
    exact hl w
  | false =>
    cases hn : later.knownEmpty with
    | true =>
      intro w
      rw [hl.plays.eq_nil hn w, List.append_nil]
      exact h w
    | false =>
      exact h.stage (.first · later) rfl (fun c hc _ => hc.first hl.plays) fun _ _ => trivial

theorem Steady.tail (h : s.Steady os) (n : Nat) : (s.tail n).Steady (Outcome.behind n os) := by
  unfold Stream.tail
  cases hs : s.knownEmpty with
  | true =>
    rw [Bool.or_true, if_pos rfl]
    intro w
    have hw := h w
    rw [h.plays.eq_nil hs w] at hw ⊢
    rwa [Outcome.behind_nil]
  | false =>
    by_cases hn : n = 0
    · subst hn
      rw [Outcome.behind_zero]
      exact h
    · simp only [hn, decide_false, Bool.or_self, Bool.false_eq_true, if_false]
      exact h.stage (.tail n) rfl (fun c hc hs => hc.tail hs n) fun _ _ => trivial

theorem Steady.limit (h : s.Steady os) (n : Nat) : (s.limit n).Steady (os.take n) := by
  unfold Stream.limit
  by_cases hn : n = 0
  · subst hn
    exact steady_empty
  · cases hs : s.knownEmpty with
    | true =>
      rw [Bool.or_true, if_pos rfl]
      exact h.of_knownEmpty hs _ List.take_nil
    | false =>
      simp only [hn, decide_false, Bool.or_self, Bool.false_eq_true, if_false]
      exact h.stage (.limit n) rfl (fun c hc _ => hc.limit n) fun _ _ => trivial

theorem Steady.reopen (h : s.Steady os) : s.reopen.Steady os :=
  h.stage (.fused false) rfl (fun _ hc _ => hc.fused) fun _ hs => hs

theorem Steady.flatten {s : Stream W ι} {is : List (Outcome ι)} (h : s.Steady is)
    {book : ι → Stream W α} {named : ι → List (Outcome α)} (hb : ∀ i, (book i).Steady (named i)) :
    (s.flatten book).Steady (Outcome.spread named is) := by
  unfold Stream.flatten
  split
  · next hk => exact h.of_knownEmpty hk _ rfl
  · exact h.stage (.flatten book) rfl (fun c hc _ => hc.flatten fun i => (hb i).plays)
      fun _ _ => trivial

section Nesting

variable {s : Stream W (Nested ι α)} {os : List (Outcome (Nested ι α))}
  {book : ι → Stream W (Nested ι α)} {named : ι → List (Outcome (Nested ι α))}

theorem Steady.flat (h : s.Steady os) (hb : ∀ i, (book i).Steady (named i)) (depth : Nat) :
    (s.flat book depth).Steady (Outcome.flat named depth os) := by
  unfold Stream.flat
  cases depth with
  | zero => exact h
  | succ k =>
    rw [if_neg (Nat.succ_ne_zero k)]
    split
    · next hk => exact h.of_knownEmpty hk _ rfl
    · exact h.stage (.descend (flatVisit (k + 1)) book) rfl
        (fun c hc _ => hc.flat (fun i => (hb i).plays) (k + 1)) fun _ _ => trivial

theorem Steady.flatMap {s : Stream W β} {os : List (Outcome β)} (h : s.Steady os)
    (hb : ∀ i, (book i).Steady (named i)) (f : Callback W β (Nested ι α)) :
    (s.flatMap book f.run).Steady (Outcome.flat named 1 (Outcome.map f.answer os)) :=
  (h.map f).flat hb 1

theorem Steady.leaves (h : s.Steady os) (hb : ∀ i, (book i).Steady (named i)) {k : Nat}
    (hk : ∀ i, .yield (.stream i) ∉ Outcome.flat named k os) :
    (s.leaves book).Steady (Outcome.values (Outcome.flat named k os)) :=
  h.stage (.descend leafVisit book) rfl (fun _ hc _ => hc.leaves (fun i => (hb i).plays) hk)
    fun _ _ => trivial

end Nesting

end PullStream.Stream
