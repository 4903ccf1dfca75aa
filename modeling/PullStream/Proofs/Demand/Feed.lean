import PullStream.Proofs.Cursor.Moves
import PullStream.Stream.Combinators
import Mathlib.Logic.Relation

/-!
# Feeds

A feed is a session of finitely or infinitely many elements, of which cursor and world together tell
how many elements have been taken from it, pulled or left out by a skip. Storage is one; a source of
the caller's becomes one by counting what it hands out, whether it jumps over elements or not. It
may read the world and change it, as long as what others do to the world meanwhile stays aside from
it.
-/

set_option autoImplicit false

namespace PullStream

variable {W σ β : Type} {aside : W → W → Prop}

/-- The next `n` elements at position `i`, or those that there are. -/
def ahead (element : Nat → Option β) (i : Nat) : Nat → List β
  | 0 => []
  | n+1 => match element i with
    | some b => b :: ahead element (i + 1) n
    | none => []

section Ahead

variable {element : Nat → Option β} {i m n : Nat}

theorem ahead_none (h : element i = none) (n : Nat) : ahead element i n = [] := by
  cases n <;> simp [ahead, h]

theorem ahead_some {b : β} (h : element i = some b) (n : Nat) :
    ahead element i (n + 1) = b :: ahead element (i + 1) n := by
  simp only [ahead, h]

/-- Behind elements that are there, the elements go on. -/
theorem ahead_add (h : (ahead element i n).length = n) (m : Nat) :
    ahead element i (n + m) = ahead element i n ++ ahead element (i + n) m := by
  induction n generalizing i with
  | zero => simp [ahead]
  | succ n ih =>
    cases hb : element i with
    | none => simp [ahead_none hb] at h
    | some b =>
      rw [ahead_some hb, List.length_cons] at h
      rw [Nat.add_right_comm, ahead_some hb, ahead_some hb, ih (Nat.succ.inj h), List.cons_append,
        Nat.add_right_comm, Nat.add_assoc]

theorem ahead_mono (i : Nat) (h : m ≤ n) : ahead element i m <+: ahead element i n := by
  induction m generalizing i n with
  | zero => exact List.nil_prefix
  | succ m ih =>
    obtain ⟨n, rfl⟩ := Nat.exists_eq_add_of_le' (Nat.le_of_add_left_le h)
    cases hb : element i with
    | none => simp [ahead_none hb]
    | some b =>
      rw [ahead_some hb, ahead_some hb]
      exact (List.prefix_cons_inj b).mpr (ih (i + 1) (by omega))

end Ahead

/-- What a move of a cursor at position `i` may do. -/
def Ticks (element : Nat → Option β) (At : Nat → Cursor W β → W → Prop) (i : Nat) :
    Move β × Cursor W β × W → Prop
  | (.silent, d, v) => At i d v
  | (.yield b, d, v) => element i = some b ∧ At (i + 1) d v
  | (.done, _, _) => element i = none
  | (.panic _, _, _) => False

/-- What a move may do that leaves out `n` elements at position `i`. -/
def Skips (element : Nat → Option β) (At : Nat → Cursor W β → W → Prop) (i n : Nat) :
    Skip × Cursor W β × W → Prop
  | (.ongoing m, d, v) => ∃ k, n = k + m ∧ (ahead element i k).length = k ∧ At (i + k) d v
  | (.finished true, d, v) => (ahead element i n).length = n ∧ At (i + n) d v
  | (.finished false, _, _) => ∀ m, (ahead element i m).length < n
  | (.panic _, _, _) => False

/-- `At i c w` says that `i` elements have been taken from a session that is now at `c` in the world
`w`. Changes of the world that stay aside make no difference to that. -/
structure Feed (aside : W → W → Prop) (β : Type) : Type 1 where
  stream : Stream W β
  world : W
  element : Nat → Option β
  At : Nat → Cursor W β → W → Prop
  unique : ∀ {i j c w}, At i c w → At j c w → i = j
  keeps : ∀ {i c w v}, At i c w → aside w v → At i c v
  opens : ∃ c v, stream.cursor world = (.ok c, v) ∧ At 0 c v
  ticks : ∀ {i c w}, At i c w → Ticks element At i (c.tick w)
  skips : ∀ {i c w}, At i c w → ∀ n, Skips element At i n (c.skip n w)
  comes : ∀ {i c w}, At i c w → ∃ fuel r, c.step fuel w = some r
  leaves : ∀ {i c w}, At i c w → ∀ n, ∃ fuel r, c.advanceBy fuel n w = some r

theorem Feed.kept (f : Feed aside β) {i : Nat} {c : Cursor W β} {w v : W} (h : f.At i c w)
    (hv : Relation.ReflGen aside w v) : f.At i c v := by
  cases hv with
  | refl => exact h
  | single hs => exact f.keeps h hs

/-- The first `m` elements. -/
def Feed.first (f : Feed aside β) (m : Nat) : List β := ahead f.element 0 m

/-- In each state at position `i`, the source hands out the element there, and a jump of its own
gets over as many elements as there are. -/
structure Source.Supplies (src : Source W σ β) (aside : W → W → Prop) (element : Nat → Option β)
    (From : Nat → σ → W → Prop) : Prop where
  keeps : ∀ {i s w v}, From i s w → aside w v → From i s v
  pull : ∀ {i s w}, From i s w →
    (∃ b s' v, element i = some b ∧ src.pull s w = (.ok (.yield b), s', v) ∧
        From (i + 1) s' v) ∨
      ∃ s' v, element i = none ∧ src.pull s w = (.ok .done, s', v)
  jump : ∀ {jump}, src.jump = some jump → ∀ {i s w}, From i s w → ∀ n,
    (∃ s' v, (ahead element i n).length = n ∧ jump n s w = (.ok true, s', v) ∧
        From (i + n) s' v) ∨
      ∃ s' v, (∀ m, (ahead element i m).length < n) ∧ jump n s w = (.ok false, s', v)

namespace Feed

open Cursor

section Supplied

variable {src : Source W σ β} {element : Nat → Option β} {From : Nat → σ → W → Prop}

theorem ticks_supplied (h : src.Supplies aside element From) {i : Nat} {s : σ} {w : W}
    (hs : From i s w) :
    Ticks element (fun i c w => ∃ s, c = .source src false s ∧ From i s w) i
      (Moves.pull src false s w) := by
  rcases h.pull hs with ⟨b, s', v, hb, hp, hs'⟩ | ⟨s', v, hb, hp⟩
  · simp only [Moves.pull, hp, Bool.false_eq_true, if_false]
    exact ⟨hb, s', rfl, hs'⟩
  · simp only [Moves.pull, hp, Bool.false_eq_true, if_false]
    exact hb

/-- Leaving elements out by pulls gets over those that are there. -/
theorem skips_by_pulls (h : src.Supplies aside element From) {i : Nat} {s : σ} {w : W}
    (hs : From i s w) (n : Nat) :
    Skips element (fun i c w => ∃ s, c = .source src false s ∧ From i s w) i n
      (Moves.skipBySteps (.source src false s) (Moves.pull src false s) n w) := by
  cases n with
  | zero => exact ⟨rfl, s, rfl, hs⟩
  | succ n =>
    rcases h.pull hs with ⟨b, s', v, hb, hp, hs'⟩ | ⟨s', v, hb, hp⟩
    · have hk : (ahead element i 1).length = 1 := by simp [ahead, hb]
      simp only [Moves.skipBySteps, Moves.pull, hp, Bool.false_eq_true, if_false]
      by_cases hn : n = 0
      · subst hn
        exact ⟨hk, s', rfl, hs'⟩
      · simp only [hn, if_false]
        exact ⟨1, Nat.add_comm n 1, hk, s', rfl, hs'⟩
    · simp only [Moves.skipBySteps, Moves.pull, hp, Bool.false_eq_true, if_false]
      intro m
      simp [ahead_none hb]

theorem leaves_by_pulls (h : src.Supplies aside element From) (hj : src.jump = none) {i : Nat}
    {s : σ} {w : W} (hs : From i s w) (n : Nat) :
    ∃ fuel r, (Cursor.source src false s).advanceBy fuel n w = some r := by
  induction n generalizing i s w with
  | zero => exact ⟨1, _, by simp only [advanceBy, skip_source, hj, Moves.skipBySteps]; rfl⟩
  | succ n ih =>
    have hk : (Cursor.source src false s).skip (n + 1) w =
        Moves.skipBySteps (.source src false s) (Moves.pull src false s) (n + 1) w := by
      rw [skip_source, hj]
    rcases h.pull hs with ⟨b, s', v, hb, hp, hs'⟩ | ⟨s', v, hb, hp⟩
    · by_cases hn : n = 0
      · simp only [Moves.skipBySteps, Moves.pull, hp, hn, Bool.false_eq_true, if_false, if_true] at hk
        exact ⟨1, _, by rw [advanceBy, hn, hk]⟩
      · simp only [Moves.skipBySteps, Moves.pull, hp, hn, Bool.false_eq_true, if_false] at hk
        obtain ⟨fuel, r, hr⟩ := ih hs'
        exact ⟨fuel + 1, r, by rw [advanceBy, hk]; exact hr⟩
    · simp only [Moves.skipBySteps, Moves.pull, hp, Bool.false_eq_true, if_false] at hk
      exact ⟨1, _, by rw [advanceBy, hk]⟩

end Supplied

/-- A source whose state and world tell how many elements it has handed out. -/
def ofSource (start : Act W σ) (src : Source W σ β) (world : W) (element : Nat → Option β)
    (From : Nat → σ → W → Prop)
    (unique : ∀ {i j s w}, From i s w → From j s w → i = j)
    (opens : ∃ s v, start world = (.ok s, v) ∧ From 0 s v)
    (h : src.Supplies aside element From) : Feed aside β where
  stream := .source start src
  world := world
  element := element
  At i c w := ∃ s, c = .source src false s ∧ From i s w
  unique := by
    rintro i j _ w ⟨s, rfl, hi⟩ ⟨s', hc, hj⟩
    cases hc
    exact unique hi hj
  keeps := by
    rintro i _ w v ⟨s, rfl, hs⟩ hv
    exact ⟨s, rfl, h.keeps hs hv⟩
  opens := by
    obtain ⟨s, v, hs, hf⟩ := opens
    refine ⟨.source src false s, v, ?_, s, rfl, hf⟩
    simp only [Stream.cursor, Act.andThen, hs, Act.done]
  ticks := by
    rintro i _ w ⟨s, rfl, hs⟩
    exact ticks_supplied h hs
  skips := by
    rintro i _ w ⟨s, rfl, hs⟩ n
    rw [skip_source]
    cases hj : src.jump with
    | none => exact skips_by_pulls h hs n
    | some jump =>
      rcases h.jump hj hs n with ⟨s', v, hn, hp, hs'⟩ | ⟨s', v, hn, hp⟩
      · simp only [hp, Bool.false_eq_true, if_false]
        exact ⟨hn, s', rfl, hs'⟩
      · simp only [hp, Bool.false_eq_true, if_false]
        exact hn
  comes := by
    rintro i _ w ⟨s, rfl, hs⟩
    refine ⟨1, ?_⟩
    rcases h.pull hs with ⟨b, s', v, hb, hp, hs'⟩ | ⟨s', v, hb, hp⟩
    · exact ⟨_, by simp only [step, tick_source, Moves.pull, hp, Bool.false_eq_true, if_false]; rfl⟩
    · exact ⟨_, by simp only [step, tick_source, Moves.pull, hp, Bool.false_eq_true, if_false]; rfl⟩
  leaves := by
    rintro i _ w ⟨s, rfl, hs⟩ n
    cases hj : src.jump with
    | none => exact leaves_by_pulls h hj hs n
    | some jump =>
      refine ⟨1, ?_⟩
      rcases h.jump hj hs n with ⟨s', v, hn, hp, hs'⟩ | ⟨s', v, hn, hp⟩
      · exact ⟨_, by simp only [advanceBy, skip_source, hj, hp, Bool.false_eq_true, if_false]; rfl⟩
      · exact ⟨_, by simp only [advanceBy, skip_source, hj, hp, Bool.false_eq_true, if_false]; rfl⟩

section Storage

variable {xs : Array β}

theorem length_ahead_storage (i n : Nat) :
    (ahead (xs[·]?) i n).length = min n (xs.size - i) := by
  induction n generalizing i with
  | zero => simp [ahead]
  | succ n ih =>
    by_cases h : i < xs.size
    · have hi : xs[i]? = some xs[i] := Array.getElem?_eq_getElem h
      rw [ahead_some hi, List.length_cons, ih]
      omega
    · have hi : xs[i]? = none := Array.getElem?_eq_none (by omega)
      rw [ahead_none hi, List.length_nil]
      omega

theorem ticks_slice {At : Nat → Cursor W β → W → Prop} {i : Nat} {w : W} (hi : i ≤ xs.size)
    (hs : ∀ j ≤ xs.size, At j (.slice xs j) w) :
    Ticks (xs[·]?) At i ((slice xs i).tick w) := by
  rw [tick_slice]
  by_cases h : i < xs.size
  · simp only [Array.getElem?_eq_getElem h]
    exact ⟨Array.getElem?_eq_getElem h, hs (i + 1) h⟩
  · have hn : xs[i]? = none := Array.getElem?_eq_none (by omega)
    simp only [hn]
    exact hn

theorem skips_slice {At : Nat → Cursor W β → W → Prop} {i : Nat} {w : W}
    (hs : ∀ j ≤ xs.size, At j (.slice xs j) w) (hi : i ≤ xs.size) (n : Nat) :
    Skips (xs[·]?) At i n ((slice xs i).skip n w) := by
  rw [skip_slice]
  by_cases h : n ≤ xs.size - i
  · rw [if_pos h]
    refine ⟨?_, hs (i + n) (by omega)⟩
    rw [length_ahead_storage]
    omega
  · rw [if_neg h]
    intro m
    rw [length_ahead_storage]
    omega

/-- Storage, read by its index. Storage that holds nothing is the shared empty stream. -/
def storage (world : W) (xs : Array β) : Feed aside β where
  stream := .ofArray xs
  world := world
  element i := xs[i]?
  At i c _ := c = .slice xs i ∧ i ≤ xs.size ∨ c = .empty ∧ i = 0 ∧ xs = #[]
  unique := by
    rintro i j c w (⟨rfl, hi⟩ | ⟨rfl, rfl, hi⟩) (⟨hc, hj⟩ | ⟨hc, rfl, hj⟩) <;> cases hc <;> rfl
  keeps h _ := h
  opens := by
    unfold Stream.ofArray
    split
    · next h => exact ⟨.empty, world, rfl, .inr ⟨rfl, rfl, by simpa using h⟩⟩
    · exact ⟨.slice xs 0, world, rfl, .inl ⟨rfl, Nat.zero_le _⟩⟩
  ticks := by
    rintro i c w (⟨rfl, hi⟩ | ⟨rfl, rfl, rfl⟩)
    · exact ticks_slice hi fun j hj => .inl ⟨rfl, hj⟩
    · rfl
  skips := by
    rintro i c w (⟨rfl, hi⟩ | ⟨rfl, rfl, rfl⟩) n
    · exact skips_slice (fun j hj => .inl ⟨rfl, hj⟩) hi n
    · rw [skip_eq_skipBySteps id]
      cases n with
      | zero => exact ⟨rfl, .inr ⟨rfl, rfl, rfl⟩⟩
      | succ n =>
        intro m
        rw [ahead_none rfl]
        exact Nat.succ_pos n
  comes := by
    rintro i c w (⟨rfl, hi⟩ | ⟨rfl, rfl, rfl⟩)
    · refine ⟨1, ?_⟩
      rw [step, tick_slice]
      cases xs[i]? <;> exact ⟨_, rfl⟩
    · exact ⟨1, _, rfl⟩
  leaves := by
    rintro i c w (⟨rfl, hi⟩ | ⟨rfl, rfl, rfl⟩) n
    · refine ⟨1, ?_⟩
      rw [advanceBy, skip_slice]
      split
      · next h => split at h <;> cases h
      · exact ⟨_, rfl⟩
      · exact ⟨_, rfl⟩
    · refine ⟨1, ?_⟩
      rw [advanceBy, skip_eq_skipBySteps id]
      cases n <;> exact ⟨_, rfl⟩

end Storage

/-- A list that a source walks down. -/
def list (world : W) (xs : List β) : Feed aside β :=
  ofSource (Act.done xs) Stream.listSource world (xs[·]?)
    (fun i rest _ => rest = xs.drop i ∧ i ≤ xs.length)
    (by
      rintro i j _ _ ⟨rfl, hi⟩ ⟨h, hj⟩
      have hl := congrArg List.length h
      rw [List.length_drop, List.length_drop] at hl
      omega)
    ⟨xs, world, rfl, rfl, Nat.zero_le _⟩
    { keeps := fun h _ => h
      pull := by
        rintro i _ w ⟨rfl, hi⟩
        by_cases h : i < xs.length
        · refine .inl ⟨xs[i], xs.drop (i + 1), w, List.getElem?_eq_getElem h, ?_, rfl, h⟩
          rw [List.drop_eq_getElem_cons h]
          rfl
        · refine .inr ⟨[], w, List.getElem?_eq_none (by omega), ?_⟩
          rw [List.drop_of_length_le (by omega)]
          rfl
      jump := nofun }

/-- Whether storage is read by its index or in place, it is a feed of its elements. -/
theorem of_array (world : W) (xs : Array β) :
    (∃ f : Feed aside β, f.world = world ∧ f.stream = .ofArray xs ∧ f.element = (xs[·]?)) ∧
      ∃ f : Feed aside β, f.world = world ∧ f.stream = .view xs ∧ f.element = (xs[·]?) := by
  refine ⟨⟨storage world xs, rfl, rfl, rfl⟩, ?_⟩
  by_cases h : xs.isEmpty = true
  · obtain rfl : xs = #[] := by simpa using h
    exact ⟨storage world #[], rfl, rfl, rfl⟩
  · refine ⟨list world xs.toList, rfl, ?_, ?_⟩
    · rw [Stream.view, if_neg h]
      rfl
    · funext i
      exact Array.getElem?_toList

end Feed

/-- The same source with a count of what it has handed out or jumped over. -/
def Source.counted (src : Source W σ β) : Source W (σ × Nat) β where
  pull s w := match src.pull s.1 w with
    | (.ok (.yield b), s', w) => (.ok (.yield b), (s', s.2 + 1), w)
    | (r, s', w) => (r, (s', s.2), w)
  jump := src.jump.map fun jump n s w => match jump n s.1 w with
    | (.ok true, s', w) => (.ok true, (s', s.2 + n), w)
    | (r, s', w) => (r, (s', s.2), w)
  again := src.again

/-- Counting changes nothing that a holder of the source can see. -/
theorem Source.counted_pull (src : Source W σ β) (s : σ × Nat) (w : W) :
    ((src.counted.pull s w).1, (src.counted.pull s w).2.1.1, (src.counted.pull s w).2.2) =
      src.pull s.1 w := by
  rcases h : src.pull s.1 w with ⟨_ | (_ | _), s', v⟩ <;> simp [counted, h]

theorem Source.Supplies.counted {src : Source W σ β} {element : Nat → Option β}
    {From : Nat → σ → W → Prop} (h : src.Supplies aside element From) :
    src.counted.Supplies aside element fun i s w => From i s.1 w ∧ s.2 = i where
  keeps hs hv := ⟨h.keeps hs.1 hv, hs.2⟩
  pull := by
    rintro i ⟨s, _⟩ w ⟨hs, rfl⟩
    rcases h.pull hs with ⟨b, s', v, hb, hp, hs'⟩ | ⟨s', v, hb, hp⟩
    · exact .inl ⟨b, _, v, hb, by simp only [Source.counted, hp]; rfl, hs', rfl⟩
    · exact .inr ⟨_, v, hb, by simp only [Source.counted, hp]; rfl⟩
  jump := by
    intro jump hj i s w hs n
    obtain ⟨s, _⟩ := s
    obtain ⟨hs, rfl⟩ := hs
    obtain ⟨jump', hj', rfl⟩ := Option.map_eq_some_iff.mp hj
    rcases h.jump hj' hs n with ⟨s', v, hn, hp, hs'⟩ | ⟨s', v, hn, hp⟩
    · exact .inl ⟨_, v, hn, by simp only [hp]; rfl, hs', rfl⟩
    · exact .inr ⟨_, v, hn, by simp only [hp]; rfl⟩

/-- Any source of the caller's, with the elements it hands out. -/
def Feed.counting (start : Act W σ) (src : Source W σ β) (world : W) (element : Nat → Option β)
    (From : Nat → σ → W → Prop) (opens : ∃ s v, start world = (.ok s, v) ∧ From 0 s v)
    (h : src.Supplies aside element From) : Feed aside β :=
  ofSource (start.andThen fun s => Act.done (s, 0)) src.counted world element
    (fun i s w => From i s.1 w ∧ s.2 = i) (fun hi hj => hi.2.symm.trans hj.2)
    (by
      obtain ⟨s, v, hs, hf⟩ := opens
      refine ⟨(s, 0), v, ?_, hf, rfl⟩
      simp only [Act.andThen, hs, Act.done])
    h.counted

end PullStream
