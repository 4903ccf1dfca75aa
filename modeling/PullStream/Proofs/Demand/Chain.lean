import PullStream.Proofs.Demand.Feed
import PullStream.Proofs.Demand.Sieve
import PullStream.Proofs.Outcome
import Mathlib.Data.List.Infix
import Mathlib.Order.Bounds.Basic

/-!
# Chains over a feed

`Chained` ties the cursor of a chain to the cursor of the feed inside it and to what the chain still
makes of the elements to come. `Chained.advances` says what one move does: the feed goes on by some
elements, exactly one if the move yields, and what was to be made of these has come out. Run
lemmas for steps and for whole takes follow by induction on the fuel and on the number of steps.
-/

set_option autoImplicit false

namespace PullStream

open Relation Cursor Moves

variable {W α β : Type} {aside : W → W → Prop}

/-- A stream that comes to its end, with its elements. Its cursors do nothing to the world but what
stays aside. -/
structure Listed (aside : W → W → Prop) (α : Type) : Type 1 where
  stream : Stream W α
  elements : List α
  plays : stream.Plays (elements.map .yield)
  Discreet : Cursor W α → Prop
  opening : ∀ {c w v}, stream.cursor w = (.ok c, v) → Discreet c ∧ ReflGen aside w v
  moving : ∀ {c}, Discreet c → ∀ w, Discreet (c.tick w).2.1 ∧ ReflGen aside w (c.tick w).2.2

/-- With `k` stages around `c`, the cursor is to make of the elements to come what the function
says. A tail right around the feed leaves elements out in the feed's own way. -/
inductive Chained (aside : W → W → Prop) (c : Cursor W β) :
    Nat → {α : Type} → Cursor W α → (List β → List α) → Prop
  | here : Chained aside c 0 c id
  | skipping (n : Nat) : Chained aside c 1 (.tail n c) (List.drop n)
  | sieve {k : Nat} {α γ : Type} {d : Cursor W α} {g : List β → List α} (S : Sieve aside α γ)
      (s : S.σ) (hk : S.careful = true → 0 < k) (h : Chained aside c k d g) :
      Chained aside c (k + 1) (S.around s d) fun l => S.run s (g l)
  | fresh {k : Nat} {κ α : Type} [eq : DecidableEq κ] {key : Total aside α κ}
      {other : Listed aside α} {d : Cursor W α} {g : List β → List α} (h : Chained aside c k d g) :
      Chained aside c (k + 1) (.excludeFresh eq key.run other.stream d)
        fun l => (g l).filter fun a => key.value a ∉ other.elements.map key.value
  | drain {k : Nat} {κ α : Type} [eq : DecidableEq κ] {key : Total aside α κ}
      {other : Listed aside α} {bs : List α} {e d : Cursor W α} {known : List κ}
      {g : List β → List α} (he : e.Plays (bs.map .yield)) (hq : other.Discreet e)
      (h : Chained aside c k d g) :
      Chained aside c (k + 1) (.excludeDrain eq key.run other.stream e known d)
        fun l => (g l).filter fun a => key.value a ∉ known ++ bs.map key.value

variable {f : Feed aside β} {c : Cursor W β} {d : Cursor W α} {g : List β → List α} {i k : Nat}
  {w v : W}

theorem Chained.not_jumps (h : Chained aside c k d g) (hk : 0 < k) : ¬ d.Jumps := by
  cases h with
  | here => exact absurd hk (Nat.lt_irrefl 0)
  | skipping => exact id
  | sieve S s => exact S.not_jumps s _
  | fresh => exact id
  | drain => exact id

theorem Chained.covers (h : Chained aside c k d g) : c.Over d := by
  induction h with
  | here => exact .here
  | skipping => exact .tail .here
  | sieve S s _ _ ih => exact S.covers s _ ih
  | fresh _ ih => exact .excludeFresh ih
  | drain _ _ _ ih => exact .excludeDrain ih

/-- Of more elements a chain makes at least as much. -/
theorem Chained.mono (h : Chained aside c k d g) {l m : List β} (hl : l <+: m) : g l <+: g m := by
  induction h with
  | here => exact hl
  | skipping n => exact hl.drop n
  | sieve S s _ _ ih => exact S.run_mono s ih
  | fresh _ ih => exact ih.filter _
  | drain _ _ _ ih => exact ih.filter _

theorem Chained.nil (h : Chained aside c k d g) : g [] = [] := by
  induction h with
  | here => rfl
  | skipping n => exact List.drop_nil
  | sieve S s _ _ ih => simp only [ih, Sieve.run]
  | fresh _ ih | drain _ _ _ ih => simp only [ih, List.filter_nil]

/-- From position `i` the feed has gone on by `n` elements, which were there, and of what the chain
makes of these and of those to come, `out` has come out. -/
structure Moved (f : Feed aside β) (i k : Nat) (g : List β → List α) (n : Nat) (out : List α)
    (c : Cursor W β) (d : Cursor W α) (g' : List β → List α) (w : W) : Prop where
  there : (ahead f.element i n).length = n
  now : f.At (i + n) c w
  chained : Chained aside c k d g'
  makes : ∀ l, g (ahead f.element i n ++ l) = out ++ g' l

theorem Moved.trans {g' g'' : List β → List α} {m n : Nat} {out out' : List α}
    {c' : Cursor W β} {d' : Cursor W α} (h : Moved f i k g n out c d g' w)
    (h' : Moved f (i + n) k g' m out' c' d' g'' v) :
    Moved f i k g (n + m) (out ++ out') c' d' g'' v where
  there := by rw [ahead_add h.there, List.length_append, h.there, h'.there]
  now := by
    rw [← Nat.add_assoc]
    exact h'.now
  chained := h'.chained
  makes l := by rw [ahead_add h.there, List.append_assoc, h.makes, h'.makes, List.append_assoc]

def Advances (f : Feed aside β) (i k : Nat) (g : List β → List α) : Move α × Cursor W α × W → Prop
  | (.silent, d, v) => ∃ n c g', Moved f i k g n [] c d g' v
  | (.yield a, d, v) => ∃ c g', Moved f i k g 1 [a] c d g' v
  | (.done, _, _) => ∀ m, g (ahead f.element i m) = []
  | (.panic _, _, _) => False

theorem advances_done {r : Move α × Cursor W α × W} (hr : r.1 = .done)
    (hg : ∀ m, g (ahead f.element i m) = []) : Advances f i k g r := by
  obtain ⟨m, d, v⟩ := r
  obtain rfl : m = .done := hr
  exact hg

theorem advances_feed (hc : f.At i c w) : Advances f i 0 id (c.tick w) := by
  have ht := f.ticks hc
  generalize c.tick w = r at ht ⊢
  rcases r with ⟨_ | b | _ | p, d, v⟩
  · exact ⟨0, d, id, rfl, ht, .here, fun _ => rfl⟩
  · have hb : ahead f.element i 1 = [b] := by simp [ahead, ht.1]
    exact ⟨d, id, by rw [hb]; rfl, ht.2, .here, fun _ => by rw [hb]; rfl⟩
  · exact ahead_none ht
  · exact ht

theorem advances_skipping (hc : f.At i c w) (n : Nat) :
    Advances f i 1 (List.drop n) ((tail n c).tick w) := by
  cases n with
  | zero =>
    have ht := f.ticks hc
    rw [tick_tail_zero]
    generalize c.tick w = r at ht ⊢
    rcases r with ⟨_ | b | _ | p, d, v⟩
    · exact ⟨0, d, _, rfl, ht, .skipping 0, fun _ => rfl⟩
    · have hb : ahead f.element i 1 = [b] := by simp [ahead, ht.1]
      exact ⟨d, _, by rw [hb]; rfl, ht.2, .skipping 0, fun _ => by rw [hb]; rfl⟩
    · exact ahead_none ht
    · exact ht
  | succ n =>
    have hs := f.skips hc (n + 1)
    rw [tick_tail_succ]
    generalize c.skip (n + 1) w = r at hs ⊢
    rcases r with ⟨m | (_ | _) | p, d, v⟩
    · obtain ⟨j, hj, hl, hd⟩ := hs
      refine ⟨j, d, _, hl, hd, .skipping m, fun l => ?_⟩
      rw [hj, List.drop_append, List.drop_of_length_le (by omega), hl, Nat.add_sub_cancel_left]
    · intro m
      have hm : (ahead f.element i m).length < n + 1 := hs m
      exact List.drop_of_length_le (by omega)
    · obtain ⟨hl, hd⟩ := hs
      refine ⟨n + 1, d, _, hl, hd, .skipping 0, fun l => ?_⟩
      rw [List.drop_append, List.drop_of_length_le (by omega), hl, Nat.sub_self]
    · exact hs

theorem advances_sieve {γ : Type} (S : Sieve aside α γ) (s : S.σ)
    (hk : S.careful = true → 0 < k) (h : Chained aside c k d g)
    (hd : Advances f i k g (d.tick w)) :
    Advances f i (k + 1) (fun l => S.run s (g l)) ((S.around s d).tick w) := by
  cases hc : S.closed s with
  | true => exact advances_done (S.stops s d w hc) fun m => S.run_closed hc _
  | false =>
    have hj : S.careful = true → ¬ d.Jumps := fun h' => h.not_jumps (hk h')
    rcases ht : d.tick w with ⟨_ | a | _ | p, d', v⟩ <;> rw [ht] at hd
    · obtain ⟨n, c', g', hm⟩ := hd
      rw [S.silent s d w d' v hc hj ht]
      exact ⟨n, c', _, hm.there, hm.now, .sieve S s hk hm.chained, fun l => by rw [hm.makes]; rfl⟩
    · obtain ⟨c', g', hm⟩ := hd
      obtain ⟨u, hv, hu⟩ := S.yield s d w a d' v hc hj ht
      have hr : ∀ l, S.run s (g (ahead f.element i 1 ++ l)) =
          (S.decide s a).1.toList ++ S.run (S.decide s a).2 (g' l) := by
        intro l
        rw [hm.makes, List.singleton_append, Sieve.run, hc]
        rfl
      have hs := Chained.sieve S (S.decide s a).2 hk hm.chained
      rw [hu]
      cases ho : (S.decide s a).1 with
      | none =>
        rw [ho] at hr
        exact ⟨1, c', _, hm.there, f.kept hm.now hv, hs, hr⟩
      | some x =>
        rw [ho] at hr
        exact ⟨c', _, hm.there, f.kept hm.now hv, hs, hr⟩
    · exact advances_done (S.done s d w d' v hc hj ht) fun m => by rw [hd m]; rfl
    · exact hd.elim

section Excluding

variable {κ : Type} [eq : DecidableEq κ] {key : Total aside α κ} {other : Listed aside α}

theorem advances_fresh (h : Chained aside c k d g) (hc : f.At i c w) :
    Advances f i (k + 1) (fun l => (g l).filter fun a => key.value a ∉ other.elements.map key.value)
      ((excludeFresh eq key.run other.stream d).tick w) := by
  obtain ⟨e, v, he, hp⟩ := other.plays w
  obtain ⟨hq, hv⟩ := other.opening he
  simp only [tick_excludeFresh, Moves.opening, he]
  exact ⟨0, c, _, rfl, f.kept hc hv, .drain hp hq h, fun _ => rfl⟩

theorem advances_drain {bs : List α} {e : Cursor W α} {known : List κ}
    (he : e.Plays (bs.map .yield)) (hq : other.Discreet e) (h : Chained aside c k d g)
    (hc : f.At i c w) :
    Advances f i (k + 1) (fun l => (g l).filter fun a => key.value a ∉ known ++ bs.map key.value)
      ((excludeDrain eq key.run other.stream e known d).tick w) := by
  have hm := he.met w
  have hd := other.moving hq w
  rw [tick_excludeDrain]
  generalize e.tick w = r at hm hd ⊢
  rcases r with ⟨_ | b | _ | p, e', v⟩
  all_goals
    obtain ⟨hq', hv⟩ := hd
    have hc' := f.kept hc hv
  · exact ⟨0, c, _, rfl, hc', .drain hm hq' h, fun _ => rfl⟩
  · obtain ⟨rest, hbs, he'⟩ := hm
    cases bs with
    | nil => cases hbs
    | cons b bs =>
      cases hbs
      obtain ⟨u, hu, hvu⟩ := key.run_eq b v
      simp only [hu]
      refine ⟨0, c, _, rfl, f.kept hc' hvu, .drain he' hq' h, fun l => ?_⟩
      simp only [List.nil_append, ahead, List.map_cons, List.mem_append, List.mem_cons,
        or_left_comm, List.cons_append]
  · obtain rfl : bs = [] := List.map_eq_nil_iff.mp hm
    refine ⟨0, c, _, rfl, hc', .sieve (Sieve.without key) known (absurd · Bool.false_ne_true) h, fun l => ?_⟩
    rw [Sieve.run_without, List.map_nil, List.append_nil]
    rfl
  · obtain ⟨rest, hbs, -⟩ := hm
    cases bs <;> cases hbs

end Excluding

/-- One move of a chain: the step lemma that everything below is derived from. -/
theorem Chained.advances (h : Chained aside c k d g) (hc : f.At i c w) :
    Advances f i k g (d.tick w) := by
  induction h with
  | here => exact advances_feed hc
  | skipping n => exact advances_skipping hc n
  | sieve S s hk h ih => exact advances_sieve S s hk h ih
  | fresh h => exact advances_fresh h hc
  | drain he hq h => exact advances_drain he hq h hc

/-- How a step comes back: with an element that was not there before the last element was taken,
or with the end, when nothing can be made of what is to come. -/
def Stepped (f : Feed aside β) (i k : Nat) (g : List β → List α) :
    Except Panic (Step α) × Cursor W α × W → Prop
  | (.ok (.yield a), d, v) =>
    ∃ n c g', g (ahead f.element i n) = [] ∧ Moved f i k g (n + 1) [a] c d g' v
  | (.ok .done, _, _) => ∀ m, g (ahead f.element i m) = []
  | (.error _, _, _) => False

/-- Nothing is made of elements that nothing has come out of yet. -/
theorem Moved.eq_nil {n m : Nat} {g' : List β → List α} (hm : Moved f i k g n [] c d g' w)
    (h : g' (ahead f.element (i + n) m) = []) : g (ahead f.element i (n + m)) = [] := by
  rw [ahead_add hm.there, hm.makes, h]
  rfl

theorem Stepped.of_moved {n : Nat} {g' : List β → List α}
    {r : Except Panic (Step α) × Cursor W α × W} (hg : Chained aside c k d g)
    {c' : Cursor W β} {d' : Cursor W α} (hm : Moved f i k g n [] c' d' g' w)
    (h : Stepped f (i + n) k g' r) : Stepped f i k g r := by
  rcases r with ⟨_ | (a | _), e, v⟩
  · exact h
  · obtain ⟨j, x, g'', hj, hx⟩ := h
    exact ⟨n + j, x, g'', hm.eq_nil hj, hm.trans hx⟩
  · intro m
    by_cases hn : n ≤ m
    · obtain ⟨j, rfl⟩ := Nat.exists_eq_add_of_le hn
      exact hm.eq_nil (h j)
    · have hp : g (ahead f.element i m) <+: g (ahead f.element i n) :=
        hg.mono (ahead_mono i (Nat.le_of_not_le hn))
      have h0 := hm.eq_nil (m := 0) hm.chained.nil
      rw [Nat.add_zero] at h0
      rw [h0] at hp
      exact List.prefix_nil.mp hp

theorem Chained.stepped {fuel : Nat} {r : Except Panic (Step α) × Cursor W α × W}
    (h : Chained aside c k d g) (hc : f.At i c w) (hs : d.step fuel w = some r) : Stepped f i k g r := by
  induction fuel generalizing i c d g w with
  | zero => cases hs
  | succ fuel ih =>
    have ha := h.advances hc
    rw [step] at hs
    rcases ht : d.tick w with ⟨_ | a | _ | p, d', v⟩ <;> rw [ht] at ha hs
    · obtain ⟨n, c', g', hm⟩ := ha
      exact .of_moved h hm (ih hm.chained hm.now hs)
    · cases hs
      obtain ⟨c', g', hm⟩ := ha
      exact ⟨0, c', g', h.nil, hm⟩
    · cases hs
      exact ha
    · exact ha.elim

/-- Steps a cursor until it has yielded `n` elements. -/
def Cursor.taking (fuel : Nat) : Nat → Cursor W α → W → Option (List α × Cursor W α × W)
  | 0, c, w => some ([], c, w)
  | n+1, c, w => match c.step fuel w with
    | some (.ok (.yield a), c, w) => (taking fuel n c w).map fun (as, r) => (a :: as, r)
    | _ => none

theorem Cursor.taking_succ {fuel n : Nat} {d e : Cursor W α} {as : List α}
    (h : d.taking fuel (n + 1) w = some (as, e, v)) :
    ∃ a d' u as', d.step fuel w = some (.ok (.yield a), d', u) ∧
      d'.taking fuel n u = some (as', e, v) ∧ as = a :: as' := by
  rw [taking] at h
  split at h
  · next a d' u hs =>
    obtain ⟨⟨as', e', v'⟩, ht, hr⟩ := Option.map_eq_some_iff.mp h
    cases hr
    exact ⟨a, d', u, as', hs, ht, rfl⟩
  · cases h

/-- When `n + 1` elements have been yielded, the feed has gone on by a number of elements of which
one less leads to `n` elements only. -/
theorem Chained.taken {fuel n : Nat} {d e : Cursor W α} {as : List α}
    (h : Chained aside c k d g) (hc : f.At i c w) (ht : d.taking fuel (n + 1) w = some (as, e, v)) :
    ∃ m b g', (g (ahead f.element i m)).length = n ∧ as.length = n + 1 ∧
      Moved f i k g (m + 1) as b e g' v := by
  induction n generalizing i c d g as w with
  | zero =>
    obtain ⟨a, d', u, as', hs, ht', rfl⟩ := taking_succ ht
    cases ht'
    obtain ⟨m, b, g', hm, hb⟩ := h.stepped hc hs
    exact ⟨m, b, g', by rw [hm]; rfl, rfl, hb⟩
  | succ n ih =>
    obtain ⟨a, d', u, as', hs, ht', rfl⟩ := taking_succ ht
    obtain ⟨j, c', g', hj, hm⟩ := h.stepped hc hs
    obtain ⟨m, b, g'', hl, hn, hb⟩ := ih hm.chained hm.now ht'
    refine ⟨j + 1 + m, b, g'', ?_, by rw [List.length_cons, hn], hm.trans hb⟩
    rw [ahead_add hm.there, hm.makes, List.length_append, hl, List.length_singleton, Nat.add_comm]

/-- From the start of the feed, what has been yielded is what the chain makes of the elements taken,
and fewer of these would not have been enough. -/
theorem Chained.demand {fuel n : Nat} {d e : Cursor W α} {as : List α}
    (h : Chained aside c k d g) (hc : f.At 0 c w) (ht : d.taking fuel (n + 1) w = some (as, e, v)) :
    ∃ m b, IsLeast {m | n + 1 ≤ (g (f.first m)).length} m ∧ b.Over e ∧ f.At m b v ∧
      as = g (f.first m) ∧ as.length = n + 1 := by
  obtain ⟨m, b, g', hl, hn, hm⟩ := h.taken hc ht
  have has : g (f.first (m + 1)) = as := by
    have h0 := hm.makes []
    rwa [List.append_nil, hm.chained.nil, List.append_nil] at h0
  have hmem : n + 1 ≤ (g (f.first (m + 1))).length := by rw [has, hn]
  have hlow : m + 1 ∈ lowerBounds {m | n + 1 ≤ (g (f.first m)).length} := by
    intro m' hm'
    by_contra hlt
    have hp : g (f.first m') <+: g (f.first m) := h.mono (ahead_mono 0 (by omega))
    have hle := hp.length_le
    have hshort : (g (f.first m)).length = n := hl
    have hlong : n + 1 ≤ (g (f.first m')).length := hm'
    omega
  have hat : f.At (m + 1) b v := by simpa using hm.now
  exact ⟨m + 1, b, ⟨hmem, hlow⟩, hm.chained.covers, hat, has.symm, hn⟩

end PullStream
