import PullStream.Proofs.Composition.Combinator
import PullStream.Proofs.Demand.Arrival

/-!
# Demand of pipelines

`Pipeline` is the syntax of chains over a feed. `stream` puts a chain together with the combinators,
and `meaning` says by list functions what it makes of the first elements. `no_read_ahead` relates
the two: with every element that is yielded, the feed has been asked for the least number of
elements that this takes.
-/

set_option autoImplicit false

namespace PullStream

variable {W α β : Type} {aside : W → W → Prop}

inductive Pipeline (aside : W → W → Prop) (β : Type) : Type → Type 1
  | feed : Pipeline aside β β
  | map {α γ : Type} (f : Total aside α γ) (p : Pipeline aside β α) : Pipeline aside β γ
  | filter {α : Type} (q : Total aside α Bool) (p : Pipeline aside β α) : Pipeline aside β α
  | filterMap {α γ : Type} (f : Total aside α (Option γ)) (p : Pipeline aside β α) :
      Pipeline aside β γ
  | distinctBy {κ α : Type} [DecidableEq κ] (key : Total aside α κ) (p : Pipeline aside β α) :
      Pipeline aside β α
  | excludeBy {κ α : Type} [DecidableEq κ] (key : Total aside α κ) (other : Listed aside α)
      (p : Pipeline aside β α) : Pipeline aside β α
  | tail {α : Type} (n : Nat) (p : Pipeline aside β α) : Pipeline aside β α
  | limit {α : Type} (n : Nat) (p : Pipeline aside β α) : Pipeline aside β α

namespace Pipeline

def stream (s : Stream W β) : {α : Type} → Pipeline aside β α → Stream W α
  | _, feed => s
  | _, map f p => (p.stream s).map f.run
  | _, filter q p => (p.stream s).filter q.run
  | _, filterMap f p => (p.stream s).filterMap f.run
  | _, distinctBy key p => (p.stream s).distinctBy key.run
  | _, excludeBy key other p => (p.stream s).excludeBy key.run other.stream
  | _, tail n p => (p.stream s).tail n
  | _, limit n p => (p.stream s).limit n

def meaning : {α : Type} → Pipeline aside β α → List β → List α
  | _, feed, l => l
  | _, map f p, l => (p.meaning l).map f.value
  | _, filter q p, l => (p.meaning l).filter q.value
  | _, filterMap f p, l => (p.meaning l).filterMap f.value
  | _, distinctBy key p, l => Sieve.firsts key.value [] (p.meaning l)
  | _, excludeBy key other p, l =>
    (p.meaning l).filter fun a => key.value a ∉ other.elements.map key.value
  | _, tail n p, l => (p.meaning l).drop n
  | _, limit n p, l => (p.meaning l).take n

variable {f : Feed aside β}

/-- Nothing comes from a feed over the shared empty stream. -/
theorem first_of_knownEmpty (h : f.stream.knownEmpty = true) (m : Nat) : f.first m = [] := by
  obtain ⟨c, v, hc, h0⟩ := f.opens
  rw [Stream.eq_empty h] at hc
  cases hc
  exact ahead_none (f.ticks h0) m

theorem meaning_of_knownEmpty (p : Pipeline aside β α)
    (h : (p.stream f.stream).knownEmpty = true) (m : Nat) : p.meaning (f.first m) = [] := by
  induction p with
  | feed => exact first_of_knownEmpty h m
  | map _ p ih | filter _ p ih | filterMap _ p ih | distinctBy _ p ih | excludeBy _ _ p ih
  | tail _ p ih =>
    simp only [stream, Stream.knownEmpty_map, Stream.knownEmpty_filter, Stream.knownEmpty_filterMap,
      Stream.knownEmpty_distinctBy, Stream.knownEmpty_excludeBy, Stream.knownEmpty_tail] at h
    simp only [meaning, ih h, List.map_nil, List.filter_nil, List.filterMap_nil, List.drop_nil,
      Sieve.firsts]
  | limit n p ih =>
    simp only [stream, Stream.knownEmpty_limit, Bool.or_eq_true, beq_iff_eq] at h
    rcases h with rfl | h
    · exact List.take_zero
    · simp only [meaning, ih h, List.take_nil]

/-- Opened in the world of the feed, the stream is a chain around it before its first element. -/
def Starts (f : Feed aside β) (s : Stream W α) (g : List β → List α) : Prop :=
  ∃ c d v k, s.cursor f.world = (.ok d, v) ∧ f.At 0 c v ∧ Chained aside c k d g

section Starts

variable {γ : Type} {s : Stream W α} {t : Stream W γ} {g : List β → List α} {g' : List β → List γ}

theorem Starts.stage (h : Starts f s g) (around : Cursor W α → Cursor W γ)
    (ht : t.cursor = s.cursor.andThen fun c => Act.done (around c))
    (hc : ∀ {c : Cursor W β} {k : Nat} {d : Cursor W α}, Chained aside c k d g →
      ∃ k', Chained aside c k' (around d) g') : Starts f t g' := by
  obtain ⟨c, d, v, k, hd, h0, hk⟩ := h
  obtain ⟨k', hk'⟩ := hc hk
  refine ⟨c, around d, v, k', ?_, h0, hk'⟩
  simp only [ht, Act.andThen, hd, Act.done]

theorem Starts.sieve {m : List α → List γ} (h : Starts f s g) (S : Sieve aside α γ) (x : S.σ)
    (hk : S.careful = false)
    (ht : t.cursor = s.cursor.andThen fun c => Act.done (S.around x c))
    (hg : ∀ l, S.run x l = m l) : Starts f t fun l => m (g l) := by
  apply h.stage (S.around x) ht
  intro c k d hc
  have hs := Chained.sieve S x (by rw [hk]; nofun) hc
  simp only [hg] at hs
  exact ⟨k + 1, hs⟩

variable (h : Starts f s g) (hk : s.knownEmpty = false)
include h hk

theorem Starts.map (q : Total aside α γ) : Starts f (s.map q.run) fun l => (g l).map q.value := by
  simp only [Stream.map, hk, Bool.false_eq_true, if_false]
  exact h.sieve (Sieve.map q) () rfl rfl (Sieve.run_map q)

theorem Starts.filter (q : Total aside α Bool) :
    Starts f (s.filter q.run) fun l => (g l).filter q.value := by
  simp only [Stream.filter, hk, Bool.false_eq_true, if_false]
  exact h.sieve (Sieve.filter q) () rfl rfl (Sieve.run_filter q)

theorem Starts.filterMap (q : Total aside α (Option γ)) :
    Starts f (s.filterMap q.run) fun l => (g l).filterMap q.value := by
  simp only [Stream.filterMap, hk, Bool.false_eq_true, if_false]
  exact h.sieve (Sieve.filterMap q) () rfl rfl (Sieve.run_filterMap q)

theorem Starts.distinctBy {κ : Type} [DecidableEq κ] (key : Total aside α κ) :
    Starts f (s.distinctBy key.run) fun l => Sieve.firsts key.value [] (g l) := by
  simp only [Stream.distinctBy, hk, Bool.false_eq_true, if_false]
  exact h.sieve (Sieve.distinct key) [] rfl rfl (Sieve.run_distinct key [])

theorem Starts.limit (n : Nat) (hn : n ≠ 0) : Starts f (s.limit n) fun l => (g l).take n := by
  simp only [Stream.limit, hk, hn, decide_false, Bool.or_false, Bool.false_eq_true, if_false]
  exact h.sieve Sieve.limit n rfl rfl (Sieve.run_limit n)

/-- Right around the feed, a tail leaves elements out in the feed's own way. -/
theorem Starts.tail (n : Nat) : Starts f (s.tail n) fun l => (g l).drop n := by
  unfold Stream.tail
  split
  · next hn =>
    obtain rfl : n = 0 := by simpa [hk] using hn
    exact h
  · apply h.stage (.tail n) rfl
    intro c k d hc
    by_cases h0 : 0 < k
    · have hs := Chained.sieve Sieve.tail n (fun _ => h0) hc
      simp only [Sieve.run_tail] at hs
      exact ⟨k + 1, hs⟩
    · obtain rfl : k = 0 := Nat.eq_zero_of_not_pos h0
      cases hc with
      | here => exact ⟨1, .skipping n⟩

theorem Starts.excludeBy {κ : Type} [DecidableEq κ] (key : Total aside α κ) (other : Listed aside α) :
    Starts f (s.excludeBy key.run other.stream)
      fun l => (g l).filter fun a => key.value a ∉ other.elements.map key.value := by
  unfold Stream.excludeBy
  split
  · next ho =>
    have hn := other.plays.eq_nil (by simpa [hk] using ho) f.world
    simpa [List.map_eq_nil_iff.mp hn] using h
  · exact h.stage (.excludeFresh inferInstance key.run other.stream) rfl
      fun {c k d} hc => ⟨k + 1, .fresh hc⟩

end Starts

theorem starts (p : Pipeline aside β α) (h : (p.stream f.stream).knownEmpty = false) :
    Starts f (p.stream f.stream) p.meaning := by
  induction p with
  | feed =>
    obtain ⟨c, v, hc, h0⟩ := f.opens
    exact ⟨c, c, v, 0, hc, h0, .here⟩
  | map q p ih =>
    simp only [stream, Stream.knownEmpty_map] at h
    exact (ih h).map h q
  | filter q p ih =>
    simp only [stream, Stream.knownEmpty_filter] at h
    exact (ih h).filter h q
  | filterMap q p ih =>
    simp only [stream, Stream.knownEmpty_filterMap] at h
    exact (ih h).filterMap h q
  | distinctBy key p ih =>
    simp only [stream, Stream.knownEmpty_distinctBy] at h
    exact (ih h).distinctBy h key
  | excludeBy key other p ih =>
    simp only [stream, Stream.knownEmpty_excludeBy] at h
    exact (ih h).excludeBy h key other
  | tail n p ih =>
    simp only [stream, Stream.knownEmpty_tail] at h
    exact (ih h).tail h n
  | limit n p ih =>
    simp only [stream, Stream.knownEmpty_limit, Bool.or_eq_false_iff, beq_eq_false_iff_ne] at h
    exact (ih h.2).limit h.2 n h.1

end Pipeline

/-- With the `k`-th element that a pipeline yields, its feed has been asked for the least number of
elements of which `k` are made, and those are what has been yielded. Whenever the feed has that many
elements, the `k`-th one comes. -/
theorem no_read_ahead (f : Feed aside β) (p : Pipeline aside β α) :
    ∃ c v, (p.stream f.stream).cursor f.world = (.ok c, v) ∧
      (∀ k fuel as d u, c.taking fuel (k + 1) v = some (as, d, u) →
        ∃ m b, IsLeast {m | k + 1 ≤ (p.meaning (f.first m)).length} m ∧
          b.Over d ∧ (∀ j, f.At j b u ↔ j = m) ∧ as = p.meaning (f.first m) ∧
          as.length = k + 1) ∧
      ∀ k m, k + 1 ≤ (p.meaning (f.first m)).length →
        ∃ r, Settles (fun fuel => c.taking fuel (k + 1) v) r := by
  cases hk : (p.stream f.stream).knownEmpty with
  | true =>
    have hs := Stream.eq_empty hk
    refine ⟨.empty, f.world, by rw [hs]; rfl, ?_, ?_⟩
    · rintro k (_ | fuel) as d u ht <;> cases ht
    · intro k m hm
      rw [p.meaning_of_knownEmpty hk] at hm
      cases hm
  | false =>
    obtain ⟨c, d, v, j, hd, h0, hc⟩ := p.starts hk
    refine ⟨d, v, hd, ?_, fun k m hm => hc.taking_settles h0 hm⟩
    intro k fuel as e u ht
    obtain ⟨m, b, hm, hb, hat, has, hn⟩ := hc.demand h0 ht
    have hone : ∀ i, f.At i b u ↔ i = m :=
      fun i => ⟨fun hi => f.unique hi hat, fun hi => by rwa [hi]⟩
    exact ⟨m, b, hm, hb, hone, has, hn⟩

/-- A callback that leaves the world alone. -/
def Total.plain (f : α → β) : Total aside α β where
  run a := Act.done (f a)
  value := f
  fixed _ _ := rfl
  discreet _ _ := .refl

/-- Numbers without an end, drawn from a world that counts them. No one else may draw from it. -/
def tickets : Feed (fun _ _ : Nat => False) Nat :=
  .counting (Act.done ()) ⟨fun _ w => (.ok (.yield w), (), w + 1), none, false⟩ 0 some (fun i _ w => w = i)
    ⟨(), 0, rfl, rfl⟩
    { keeps := fun _ => nofun
      pull := by
        rintro _ s i rfl
        exact .inl ⟨i, s, i + 1, rfl, rfl, rfl⟩
      jump := nofun }

/-- Three odd numbers behind the first one. -/
def odds : Pipeline (fun _ _ : Nat => False) Nat Nat :=
  .limit 3 (.tail 1 (.filter (.plain fun n => n % 2 == 1) .feed))

/-- With the second of them, six numbers have been taken. -/
theorem no_read_ahead_odds : ∃ c v d b,
    (odds.stream tickets.stream).cursor 0 = (.ok c, v) ∧
      Settles (fun fuel => c.taking fuel 2 v) ([3, 5], d, 6) ∧ b.Over d ∧ tickets.At 6 b 6 := by
  obtain ⟨c, v, hc, hk, hs⟩ := no_read_ahead tickets odds
  obtain ⟨⟨as, d, u⟩, least, hl⟩ := hs 1 6 (by decide)
  obtain ⟨m, b, ⟨hm, hlow⟩, hb, hat, rfl, -⟩ := hk 1 least as d u (hl least (Nat.le_refl least))
  have hle : m ≤ 6 := hlow (show 2 ≤ (odds.meaning (tickets.first 6)).length by decide)
  have hsix : ∀ m ≤ 6, 2 ≤ (odds.meaning (tickets.first m)).length → m = 6 := by decide
  obtain rfl : m = 6 := hsix m hle hm
  have hodds : odds.meaning (tickets.first 6) = [3, 5] := by decide
  have h6 := (hat 6).mpr rfl
  obtain rfl : u = 6 := by
    obtain ⟨s, -, hu, -⟩ := h6
    exact hu
  rw [hodds] at hl
  exact ⟨c, v, d, b, hc, ⟨least, hl⟩, hb, h6⟩

end PullStream
