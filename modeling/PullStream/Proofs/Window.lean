import PullStream.Proofs.Concatenation
import PullStream.Proofs.Cursor.Handover
import PullStream.Proofs.Cursor.Likeness
import PullStream.Proofs.Limit
import PullStream.Proofs.ShortCircuit.Search

/-!
# Windows of a stream

A stage that leaves elements out does so in its first step, and a limit counts a step before it
makes it. Put around each other they still come to one stage. Two of a kind are one of their kind,
whatever panics; a window can be cut from either side as long as nothing panics; and the two sides
of a cut make up the whole, where opening the stream a second time is no different from opening it
once. Only two limits go move by move. The others are compared by their steps, since a stage may
leave elements out in more or fewer moves than another that takes the same ones.
-/

set_option autoImplicit false

namespace PullStream

open Cursor Relation

variable {W α : Type}

namespace Cursor

variable {c d e : Cursor W α} {m n k : Nat} {w v : W} {x : Except Panic (Step α)}
  {r : Except Panic Bool} {z : Except Panic Bool × Cursor W α × W}

/-! ## Steps over elements -/

/-- What it comes to leave out `n` elements behind a step. -/
def Strode (n : Nat) (d : Cursor W α) (v : W) (z : Except Panic Bool × Cursor W α × W) :
    Except Panic (Step α) → Prop
  | .ok (.yield _) => Crosses d n v z
  | .ok .done => z = (.ok false, d, v)
  | .error p => z = (.error p, d, v)

theorem crosses_succ_iff :
    Crosses c (n + 1) w z ↔ ∃ x d v, Settles (c.step · w) (x, d, v) ∧ d.Strode n v z x := by
  constructor
  · intro h
    rcases h.first_step with ⟨a, d, v, hs, h⟩ | ⟨d, v, hs, h⟩ | ⟨p, d, v, hs, h⟩
    · exact ⟨.ok (.yield a), d, v, hs, h⟩
    · exact ⟨.ok .done, d, v, hs, h⟩
    · exact ⟨.error p, d, v, hs, h⟩
  · rintro ⟨x, d, v, hs, h⟩
    obtain ⟨fuel, hs⟩ := hs.comes
    rcases x with p | a | _
    · obtain rfl : z = _ := h
      exact crosses_of_step_panic hs
    · exact crosses_of_step_yield hs h
    · obtain rfl : z = _ := h
      exact crosses_of_step_done hs

/-- What it comes to leave out `n` more elements, given what came of leaving out those before. -/
def Continues (n : Nat) (d : Cursor W α) (v : W) (z : Except Panic Bool × Cursor W α × W) :
    Except Panic Bool → Prop
  | .ok true => Crosses d n v z
  | .ok false => z = (.ok false, d, v)
  | .error p => z = (.error p, d, v)

theorem crosses_add_iff :
    Crosses c (m + n) w z ↔ ∃ r d v, Crosses c m w (r, d, v) ∧ d.Continues n v z r := by
  induction m generalizing c w with
  | zero =>
    rw [Nat.zero_add]
    refine ⟨fun h => ⟨_, c, w, .here, h⟩, ?_⟩
    rintro ⟨r, d, v, ⟨⟩, h⟩
    exact h
  | succ m ih =>
    -- what ends the first part early ends the whole with it
    rw [Nat.add_right_comm]
    simp only [crosses_succ_iff]
    constructor
    · rintro ⟨x, e, u, hs, h⟩
      rcases x with p | a | _
      · exact ⟨_, e, u, ⟨_, e, u, hs, rfl⟩, h⟩
      · obtain ⟨r, d, v, hc, hr⟩ := ih.mp h
        exact ⟨r, d, v, ⟨_, e, u, hs, hc⟩, hr⟩
      · exact ⟨_, e, u, ⟨_, e, u, hs, rfl⟩, h⟩
    · rintro ⟨r, d, v, ⟨x, e, u, hs, h⟩, hr⟩
      rcases x with p | a | _
      · cases h
        exact ⟨_, d, v, hs, hr⟩
      · exact ⟨_, e, u, hs, ih.mpr ⟨r, d, v, h, hr⟩⟩
      · cases h
        exact ⟨_, d, v, hs, hr⟩

theorem Crosses.orderly (h : Crosses c n w (r, d, v)) (hc : c.Orderly) : d.Orderly := by
  obtain ⟨l, hw, -⟩ := h.passed
  exact ⟨hw.strides hc.1, hw.inBounds hc.2⟩

/-! ## Leaving elements out twice -/

theorem crosses_tail_zero_iff :
    Crosses (tail 0 c) n w (r, e, v) ↔ ∃ d, Crosses c n w (r, d, v) ∧ e = tail 0 d := by
  induction n generalizing c w with
  | zero =>
    constructor
    · rintro ⟨⟩
      exact ⟨c, .here, rfl⟩
    · rintro ⟨d, ⟨⟩, rfl⟩
      exact .here
  | succ n ih =>
    simp only [crosses_succ_iff]
    constructor
    · rintro ⟨x, f, u, hs, h⟩
      obtain ⟨d, hd, rfl⟩ := settles_step_tail_zero_iff.mp hs
      rcases x with p | a | _
      · cases h
        exact ⟨d, ⟨_, d, v, hd, rfl⟩, rfl⟩
      · obtain ⟨g, hg, rfl⟩ := ih.mp h
        exact ⟨g, ⟨_, d, u, hd, hg⟩, rfl⟩
      · cases h
        exact ⟨d, ⟨_, d, v, hd, rfl⟩, rfl⟩
    · rintro ⟨d, ⟨x, f, u, hs, h⟩, rfl⟩
      have hs := settles_step_tail_zero hs
      rcases x with p | a | _
      · cases h
        exact ⟨_, _, v, hs, rfl⟩
      · exact ⟨_, _, u, hs, ih.mpr ⟨d, h, rfl⟩⟩
      · cases h
        exact ⟨_, _, v, hs, rfl⟩

/-- To leave out elements behind a stage that leaves out `m` is to leave out `m` more. The stage
does that in its first step, so it has to be stepped at all. -/
theorem crosses_tail_iff (hc : c.Orderly) :
    Crosses (tail m c) (n + 1) w (r, e, v) ↔
      ∃ d, Crosses c (m + (n + 1)) w (r, d, v) ∧ e = tail 0 d := by
  rw [crosses_succ_iff]
  simp only [crosses_add_iff (m := m), settles_step_tail_iff hc.1 hc.2]
  constructor
  · rintro ⟨x, g, t, ⟨b, f, u, hf, hl⟩, hs⟩
    rcases b with p | _ | _
    · cases hl
      cases hs
      exact ⟨f, ⟨_, f, v, hf, rfl⟩, rfl⟩
    · cases hl
      cases hs
      exact ⟨f, ⟨_, f, v, hf, rfl⟩, rfl⟩
    · obtain ⟨d, h, rfl⟩ := crosses_tail_zero_iff.mp (crosses_succ_iff.mpr ⟨x, g, t, hl, hs⟩)
      exact ⟨d, ⟨_, f, u, hf, h⟩, rfl⟩
  · rintro ⟨d, ⟨b, f, u, hf, hr⟩, rfl⟩
    rcases b with p | _ | _
    · cases hr
      exact ⟨_, _, _, ⟨_, d, v, hf, rfl⟩, rfl⟩
    · cases hr
      exact ⟨_, _, _, ⟨_, d, v, hf, rfl⟩, rfl⟩
    · obtain ⟨x, g, t, hx, hs⟩ := crosses_succ_iff.mp (crosses_tail_zero_iff.mpr ⟨d, hr, rfl⟩)
      exact ⟨x, g, t, ⟨_, f, u, hf, hx⟩, hs⟩

theorem settles_step_tail_left (hc : c.Orderly) (h : Settles ((tail n c).step · w) (x, e, v)) :
    ∃ d, e = tail 0 d ∧ d.Orderly := by
  obtain ⟨r, d, u, hd, hl⟩ := (settles_step_tail_iff hc.1 hc.2).mp h
  have hs := hd.orderly hc
  rcases r with p | _ | _
  · cases hl
    exact ⟨d, rfl, hs⟩
  · cases hl
    exact ⟨d, rfl, hs⟩
  · obtain ⟨f, hf, rfl⟩ := settles_step_tail_zero_iff.mp hl
    exact ⟨f, rfl, hs.step hf⟩

theorem settles_step_tail_tail_iff (hc : c.Orderly) :
    Settles ((tail n (tail m c)).step · w) (x, e, v) ↔
      ∃ d, d.Orderly ∧ Settles ((tail (m + n) c).step · w) (x, tail 0 d, v) ∧
        e = tail 0 (tail 0 d) := by
  have hs : (tail m c).Orderly := ⟨trivial, hc.2⟩
  cases n with
  | zero =>
    -- the outer stage has nothing to leave out, so the step is the inner one's
    rw [settles_step_tail_zero_iff]
    constructor
    · rintro ⟨f, h, rfl⟩
      obtain ⟨d, rfl, hd⟩ := settles_step_tail_left hc h
      exact ⟨d, hd, h, rfl⟩
    · rintro ⟨d, -, h, rfl⟩
      exact ⟨_, h, rfl⟩
  | succ n =>
    -- leaving out at the outer stage has made the inner one leave out already
    simp only [settles_step_tail_iff hc.1 hc.2, settles_step_tail_iff hs.1 hs.2]
    constructor
    · rintro ⟨r, f, u, hf, hl⟩
      obtain ⟨d, hr, rfl⟩ := (crosses_tail_iff hc).mp hf
      have hd := hr.orderly hc
      rcases r with p | _ | _
      · cases hl
        exact ⟨d, hd, ⟨_, d, v, hr, rfl⟩, rfl⟩
      · cases hl
        exact ⟨d, hd, ⟨_, d, v, hr, rfl⟩, rfl⟩
      · obtain ⟨f, hz, rfl⟩ := settles_step_tail_zero_iff.mp hl
        obtain ⟨g, rfl, hg⟩ := settles_step_tail_left hd hz
        exact ⟨g, hg, ⟨_, d, u, hr, hz⟩, rfl⟩
    · rintro ⟨d, hd, ⟨r, f, u, h, hl⟩, rfl⟩
      refine ⟨r, _, u, (crosses_tail_iff hc).mpr ⟨f, h, rfl⟩, ?_⟩
      rcases r with p | _ | _
      · cases hl
        rfl
      · cases hl
        rfl
      · exact settles_step_tail_zero hl

/-- Two stages that leave elements out, and one that leaves out as many as both. -/
def Merged (c d : Cursor W α) : Prop :=
  ∃ m n e, e.Orderly ∧ c = tail n (tail m e) ∧ d = tail (m + n) e

theorem merged_mimics : Mimics (fun _ => True) (Merged (W := W) (α := α)) := by
  rintro _ _ e x ⟨m, n, c, hc, rfl, rfl⟩ - h
  obtain ⟨d, hd, hs, rfl⟩ := (settles_step_tail_tail_iff hc).mp h
  exact ⟨_, hs, 0, 0, d, hd, rfl, rfl⟩

theorem merged_mimicked :
    Mimics (fun _ => True) (Function.swap (Merged (W := W) (α := α))) := by
  rintro _ _ e x ⟨m, n, c, hc, rfl, rfl⟩ - h
  obtain ⟨d, rfl, hd⟩ := settles_step_tail_left hc h
  exact ⟨_, (settles_step_tail_tail_iff hc).mpr ⟨d, hd, h, rfl⟩, 0, 0, d, hd, rfl, rfl⟩

/-! ## Two limits -/

/-- A limit around a limit, and the smaller of both. -/
theorem lockstep_limits : Lockstep fun c d : Cursor W α =>
    ∃ m n e, c = limit n (limit m e) ∧ d = limit (min m n) e := by
  apply Lockstep.of_tick
  · rintro _ _ ⟨m, n, e, rfl, rfl⟩
    exact ⟨id, id⟩
  · rintro _ _ ⟨m, n, e, rfl, rfl⟩ w
    cases n with
    | zero =>
      rw [Nat.min_zero]
      exact ⟨rfl, ⟨m, 0, e, rfl, congrArg (limit · e) (Nat.min_zero m).symm⟩, rfl⟩
    | succ n =>
      cases m with
      | zero =>
        rw [Nat.zero_min]
        exact ⟨rfl, ⟨0, 0, e, rfl, by rw [Nat.min_self]; rfl⟩, rfl⟩
      | succ m =>
        rw [Nat.add_min_add_right, tick_limit_succ, tick_limit_succ, tick_limit_succ]
        rcases e.tick w with ⟨_ | a | _ | p, f, v⟩
        · exact ⟨rfl, ⟨m + 1, n + 1, f, rfl, by rw [Nat.add_min_add_right]⟩, rfl⟩
        · exact ⟨rfl, ⟨m, n, f, rfl, rfl⟩, rfl⟩
        · exact ⟨rfl, ⟨0, 0, f, rfl, rfl⟩, rfl⟩
        · exact ⟨rfl, ⟨m, n, f, rfl, rfl⟩, rfl⟩

/-! ## A window of the elements -/

/-- Without a panic a limit that lets enough through does not show while elements are left out. The
end of the elements takes away all that is left of it. -/
theorem crosses_limit_iff {b : Bool} :
    Crosses (limit (m + k) c) m w (.ok b, e, v) ↔
      ∃ d, Crosses c m w (.ok b, d, v) ∧ e = limit (if b then k else 0) d := by
  induction m generalizing c w with
  | zero =>
    rw [Nat.zero_add]
    constructor
    · rintro ⟨⟩
      exact ⟨c, .here, rfl⟩
    · rintro ⟨d, ⟨⟩, rfl⟩
      exact .here
  | succ m ih =>
    rw [Nat.add_right_comm]
    simp only [crosses_succ_iff]
    constructor
    · rintro ⟨x, f, u, hs, h⟩
      obtain ⟨d, hd, rfl⟩ := (settles_step_limit_iff (x := ⟨w, x, u⟩)).mp hs
      rcases x with p | a | _
      · cases h
      · obtain ⟨g, hg, rfl⟩ := ih.mp h
        exact ⟨g, ⟨_, d, u, hd, hg⟩, rfl⟩
      · cases h
        exact ⟨d, ⟨_, d, v, hd, rfl⟩, rfl⟩
    · rintro ⟨d, ⟨x, f, u, hs, h⟩, rfl⟩
      have hs := (settles_step_limit_iff (n := m + k) (x := ⟨w, x, u⟩)).mpr ⟨f, hs, rfl⟩
      rcases x with p | a | _
      · cases h
      · exact ⟨_, _, u, hs, ih.mpr ⟨d, h, rfl⟩⟩
      · cases h
        exact ⟨_, _, v, hs, rfl⟩

theorem turns_outcome (x : Except Panic (Step α)) (u : W) (n : Nat) :
    turns ⟨u, x, v⟩ n = turns ⟨w, x, v⟩ n := by
  rcases x with _ | _ | _ <;> rfl

/-- The first step behind `m` elements, or the end in front of them. -/
def Behind (m : Nat) (x : Pace W α) (c d : Cursor W α) : Prop :=
  (∃ e v, Crosses c m x.before (.ok true, e, v) ∧ Settles (e.step · v) (x.outcome, d, x.after)) ∨
    x.outcome = .ok .done ∧ Crosses c m x.before (.ok false, d, x.after)

variable {y : Pace W α}

theorem Behind.orderly (h : Behind m y c d) (hc : c.Orderly) : d.Orderly := by
  rcases h with ⟨e, v, h, hs⟩ | ⟨-, h⟩
  · exact (h.orderly hc).step hs
  · exact h.orderly hc

theorem settles_step_tail_calm_iff (hc : c.Orderly) (hy : y.Calm) :
    Settles ((tail m c).step · y.before) (y.outcome, e, y.after) ↔
      ∃ d, Behind m y c d ∧ e = tail 0 d := by
  rw [settles_step_tail_iff hc.1 hc.2]
  constructor
  · rintro ⟨r, f, u, h, hl⟩
    rcases r with p | _ | _
    · exact absurd (congrArg Prod.fst hl) (hy p)
    · obtain ⟨ho, rfl, rfl⟩ : y.outcome = .ok .done ∧ e = tail 0 f ∧ y.after = u := by
        simpa [Lands] using hl
      exact ⟨f, .inr ⟨ho, h⟩, rfl⟩
    · obtain ⟨d, hd, rfl⟩ := settles_step_tail_zero_iff.mp hl
      exact ⟨d, .inl ⟨f, u, h, hd⟩, rfl⟩
  · rintro ⟨d, ⟨f, u, h, hs⟩ | ⟨ho, h⟩, rfl⟩
    · exact ⟨_, f, u, h, settles_step_tail_zero hs⟩
    · exact ⟨_, d, _, h, by rw [Lands, ho]⟩

theorem behind_limit_iff :
    Behind m y (limit (m + (k + 1)) c) e ↔
      ∃ d, Behind m y c d ∧ e = limit (turns y k) d := by
  obtain ⟨w, x, v⟩ := y
  constructor
  · rintro (⟨f, u, h, hs⟩ | ⟨ho, h⟩)
    · obtain ⟨d, hd, rfl⟩ := crosses_limit_iff.mp h
      obtain ⟨g, hg, rfl⟩ := (settles_step_limit_iff (x := ⟨u, x, v⟩)).mp hs
      exact ⟨g, .inl ⟨d, u, hd, hg⟩, by rw [turns_outcome]⟩
    · obtain rfl : x = .ok .done := ho
      obtain ⟨d, hd, rfl⟩ := crosses_limit_iff.mp h
      exact ⟨d, .inr ⟨rfl, hd⟩, rfl⟩
  · rintro ⟨d, ⟨f, u, h, hs⟩ | ⟨ho, h⟩, rfl⟩
    · have hl := (settles_step_limit_iff (n := k) (x := ⟨u, x, v⟩)).mpr ⟨d, hs, rfl⟩
      rw [turns_outcome (w := w)] at hl
      exact .inl ⟨_, u, crosses_limit_iff.mpr ⟨f, h, rfl⟩, hl⟩
    · obtain rfl : x = .ok .done := ho
      exact .inr ⟨rfl, crosses_limit_iff.mpr ⟨d, h, rfl⟩⟩

/-- Up to `k` elements behind `m` others, the limit outside and the limit inside. As soon as it lets
no more through, no elements are left to be left out. -/
def Windowed (c d : Cursor W α) : Prop :=
  ∃ m k e, e.Orderly ∧ (k = 0 → m = 0) ∧ c = limit k (tail m e) ∧ d = tail m (limit (m + k) e)

theorem windowed_behind (x : Pace W α) (hd : d.Orderly) :
    Windowed (limit (turns x k) (tail 0 d)) (tail 0 (limit (turns x k) d)) :=
  ⟨0, turns x k, d, hd, fun _ => rfl, rfl, by rw [Nat.zero_add]⟩

theorem windowed_spent (hd : d.Orderly) : Windowed (limit 0 (tail 0 d)) (tail 0 (limit 0 d)) :=
  ⟨0, 0, d, hd, fun _ => rfl, rfl, rfl⟩

theorem windowed_mimics : Mimics Pace.Calm (Windowed (W := W) (α := α)) := by
  rintro _ _ e x ⟨m, k, c, hc, hk, rfl, rfl⟩ hx h
  cases k with
  | zero =>
    obtain rfl := hk rfl
    have hz := h.unique (settles_step_limit_zero _ x.before)
    obtain ⟨w, o, v⟩ := x
    cases hz
    exact ⟨_, settles_step_tail_zero (settles_step_limit_zero c _), windowed_spent hc⟩
  | succ k =>
    obtain ⟨f, hf, rfl⟩ := settles_step_limit_iff.mp h
    obtain ⟨d, hd, rfl⟩ := (settles_step_tail_calm_iff hc hx).mp hf
    have hl : (limit (m + (k + 1)) c).Orderly := ⟨trivial, hc.2⟩
    exact ⟨_, (settles_step_tail_calm_iff hl hx).mpr ⟨_, behind_limit_iff.mpr ⟨d, hd, rfl⟩, rfl⟩,
      windowed_behind x (hd.orderly hc)⟩

theorem windowed_mimicked : Mimics Pace.Calm (Function.swap (Windowed (W := W) (α := α))) := by
  rintro _ _ e x ⟨m, k, c, hc, hk, rfl, rfl⟩ hx h
  have hl : (limit (m + k) c).Orderly := ⟨trivial, hc.2⟩
  cases k with
  | zero =>
    obtain rfl := hk rfl
    have hz := h.unique (settles_step_tail_zero (settles_step_limit_zero c x.before))
    obtain ⟨w, o, v⟩ := x
    cases hz
    exact ⟨_, settles_step_limit_zero _ _, windowed_spent hc⟩
  | succ k =>
    obtain ⟨f, hf, rfl⟩ := (settles_step_tail_calm_iff hl hx).mp h
    obtain ⟨d, hd, rfl⟩ := behind_limit_iff.mp hf
    have ht := (settles_step_tail_calm_iff hc hx).mpr ⟨d, hd, rfl⟩
    exact ⟨_, settles_step_limit_iff.mpr ⟨_, ht, rfl⟩, windowed_behind x (hd.orderly hc)⟩

/-! ## Both sides of a cut -/

/-- Whatever calls have made of the cursor, its moves are the same in every world, which they leave
alone, and none of them panics. -/
def Inert (c : Cursor W α) : Prop :=
  ∀ d, ReflTransGen Moved c d → ∃ m e, (∀ p, m ≠ .panic p) ∧ ∀ w, d.tick w = (m, e, w)

theorem Inert.moved (h : c.Inert) (hd : ReflTransGen Moved c d) : d.Inert :=
  fun e he => h e (hd.trans he)

theorem Inert.step (h : c.Inert) (hs : Settles (c.step · w) (x, d, v)) :
    v = w ∧ (∀ p, x ≠ .error p) ∧ d.Inert ∧ ∀ u, Settles (c.step · u) (x, d, u) := by
  obtain ⟨fuel, hf⟩ := hs.comes
  clear hs
  have hd := h.moved (moved_of_step hf)
  induction fuel generalizing c w with
  | zero => cases hf
  | succ fuel ih =>
    obtain ⟨m, e, hm, ht⟩ := h c .refl
    rw [Cursor.step, ht] at hf
    cases m with
    | silent =>
      have he := h.moved (.single (.inl ⟨w, _, w, ht w⟩))
      obtain ⟨hv, hx, -, hu⟩ := ih he hf
      exact ⟨hv, hx, hd, fun u => settles_step_silent (ht u) (hu u)⟩
    | yield a =>
      cases hf
      exact ⟨rfl, nofun, hd, fun u => settles_step_yield (ht u)⟩
    | done =>
      cases hf
      exact ⟨rfl, nofun, hd, fun u => settles_step_done (ht u)⟩
    | panic p => exact absurd rfl (hm p)

theorem inert_empty : (empty : Cursor W α).Inert := by
  intro d hd
  obtain rfl := moved_empty hd
  exact ⟨.done, .empty, nofun, fun _ => rfl⟩

theorem inert_slice (xs : Array α) (i : Nat) : (slice xs i : Cursor W α).Inert := by
  intro d hd
  obtain ⟨j, rfl⟩ := moved_slice hd
  rcases hj : xs[j]? with _ | a
  · exact ⟨.done, .slice xs j, nofun, fun w => by rw [tick_slice, hj]⟩
  · exact ⟨.yield a, .slice xs (j + 1), nofun, fun w => by rw [tick_slice, hj]⟩

/-- A cursor over the first elements with the others to come, and a cursor over all of them, at the
same element. When the others have been opened, both are cursors over the same. -/
def Rejoins (c₀ : Cursor W α) (n : Nat) (later : Stream W α) (c d : Cursor W α) : Prop :=
  d.Inert ∧ ((∃ j k, j + k = n ∧ (∀ w, Crosses c₀ j w (.ok true, d, w)) ∧
    c = first (limit k d) later) ∨ c = second (tail 0 d))

section Rejoining

variable {c₀ f : Cursor W α} {later : Stream W α}

/-- What is left out when the others are opened are the elements that were seen, so the step goes on
from where the limit stopped it. -/
theorem settles_reopened (hc : c₀.Orderly) (ho : later.cursor w = (.ok (tail n c₀), w))
    (hl : Settles ((limit k c).step · w) (.ok .done, e, w)) (hr : Crosses c₀ n w (r, d, w))
    (hd : d.Lands w (x, f, w) r) : Settles ((first (limit k c) later).step · w) (x, second f, w) :=
  settles_step_first_iff.mpr ⟨_, e, w, hl, .inr ⟨_, w, ho, settles_step_second
    ((settles_step_tail_iff hc.1 hc.2).mpr ⟨r, d, w, hr, hd⟩)⟩⟩

theorem Rejoins.step (h : Rejoins c₀ n later c d) (hc : c₀.Orderly)
    (ho : ∀ w, later.cursor w = (.ok (tail n c₀), w)) (hs : Settles (d.step · w) (x, e, v)) :
    ∃ f, Settles (c.step · w) (x, f, v) ∧ Rejoins c₀ n later f e := by
  obtain ⟨hd, hj⟩ := h
  obtain ⟨rfl, hx, he, hu⟩ := hd.step hs
  rcases hj with ⟨j, k, rfl, hj, rfl⟩ | rfl
  · cases k with
    | zero =>
      -- the limit is used up, and the others are opened for the next element
      exact ⟨_, settles_reopened hc (ho v) (settles_step_limit_zero d v) (hj v)
        (settles_step_tail_zero hs), he, .inr rfl⟩
    | succ k =>
      have hl := (settles_step_limit_iff (n := k) (x := ⟨v, x, v⟩)).mpr ⟨e, hs, rfl⟩
      rcases x with p | a | _
      · exact absurd rfl (hx p)
      · have hn : ∀ w, Crosses c₀ (j + 1) w (.ok true, e, w) := fun w =>
          crosses_add_iff.mpr ⟨_, d, w, hj w, crosses_succ_iff.mpr ⟨_, e, w, hu w, .here⟩⟩
        exact ⟨_, settles_step_first_iff.mpr ⟨_, _, v, hl, rfl⟩, he,
          .inl ⟨j + 1, k, by omega, hn, rfl⟩⟩
      · -- the end comes while elements are left out again
        have hr : Crosses c₀ (j + (k + 1)) v (.ok false, e, v) :=
          crosses_add_iff.mpr ⟨_, d, v, hj v, crosses_succ_iff.mpr ⟨_, e, v, hs, rfl⟩⟩
        exact ⟨_, settles_reopened hc (ho v) hl hr rfl, he, .inr rfl⟩
  · exact ⟨_, settles_step_second (settles_step_tail_zero hs), he, .inr rfl⟩

theorem Rejoins.stepped (h : Rejoins c₀ n later c d) (hc : c₀.Orderly)
    (ho : ∀ w, later.cursor w = (.ok (tail n c₀), w)) (hs : Settles (c.step · w) (x, e, v)) :
    ∃ y f u, Settles (d.step · w) (y, f, u) := by
  obtain ⟨-, ⟨j, k, rfl, hj, rfl⟩ | rfl⟩ := h
  · obtain ⟨y, f, u, hl, hz⟩ := settles_step_first_iff.mp hs
    cases k with
    | zero =>
      cases hl.unique (settles_step_limit_zero d w)
      rcases hz with ⟨p, t, hp, -⟩ | ⟨g, t, hg, hz⟩
      · cases hp.symm.trans (ho w)
      · cases hg.symm.trans (ho w)
        obtain ⟨g, hg, rfl⟩ := settles_step_second_iff.mp hz
        obtain ⟨r, g', t, hr, hl⟩ := (settles_step_tail_iff hc.1 hc.2).mp hg
        cases hr.unique (hj w)
        obtain ⟨f, hf, -⟩ := settles_step_tail_zero_iff.mp hl
        exact ⟨_, f, _, hf⟩
    | succ k =>
      obtain ⟨f, hf, -⟩ := (settles_step_limit_iff (x := ⟨w, y, u⟩)).mp hl
      exact ⟨y, f, u, hf⟩
  · obtain ⟨f, hf, -⟩ := settles_step_second_iff.mp hs
    obtain ⟨g, hg, -⟩ := settles_step_tail_zero_iff.mp hf
    exact ⟨_, g, _, hg⟩

theorem rejoins_mimics (hc : c₀.Orderly) (ho : ∀ w, later.cursor w = (.ok (tail n c₀), w)) :
    Mimics (fun _ => True) (Rejoins c₀ n later) := by
  intro c d e x h _ hs
  obtain ⟨y, f, u, hd⟩ := h.stepped hc ho hs
  obtain ⟨g, hg, hr⟩ := h.step hc ho hd
  have hz := hs.unique hg
  obtain ⟨w, o, v⟩ := x
  cases hz
  exact ⟨f, hd, hr⟩

theorem rejoins_mimicked (hc : c₀.Orderly) (ho : ∀ w, later.cursor w = (.ok (tail n c₀), w)) :
    Mimics (fun _ => True) (Function.swap (Rejoins c₀ n later)) :=
  fun _ _ _ _ h _ hs => h.step hc ho hs

end Rejoining

end Cursor

namespace Stream

/-- To open the stream and to use its cursor neither reads nor changes the world, and nothing of it
panics. -/
def Inert (s : Stream W α) : Prop := ∃ c : Cursor W α, (∀ w, s.cursor w = (.ok c, w)) ∧ c.Inert

theorem inert_ofArray (xs : Array α) : (ofArray xs : Stream W α).Inert := by
  unfold ofArray
  split
  · exact ⟨.empty, fun _ => rfl, inert_empty⟩
  · exact ⟨.slice xs 0, fun _ => rfl, inert_slice xs 0⟩

variable {s : Stream W α} {m n : Nat}

theorem tail_empty (n : Nat) : (empty : Stream W α).tail n = .empty := by
  simp [tail, knownEmpty]

theorem limit_empty (n : Nat) : (empty : Stream W α).limit n = .empty := by
  simp [limit, knownEmpty]

theorem tail_of_live (hs : s.knownEmpty = false) (hn : 0 < n) : s.tail n = .skipping n s := by
  simp [tail, hs, Nat.ne_of_gt hn]

theorem limit_of_live (hs : s.knownEmpty = false) (hn : 0 < n) : s.limit n = .capping n s := by
  simp [limit, hs, Nat.ne_of_gt hn]

theorem tail_tail_concurs (hs : s.Strides) (m n : Nat) :
    ((s.tail m).tail n).Concurs (fun _ => True) (s.tail (m + n)) := by
  rcases Nat.eq_zero_or_pos m with rfl | hm
  · rw [tail_zero, Nat.zero_add]
    exact .refl _
  rcases Nat.eq_zero_or_pos n with rfl | hn
  · exact .refl _
  cases he : s.knownEmpty with
  | true =>
    rw [eq_empty he, tail_empty, tail_empty, tail_empty]
    exact .refl _
  | false =>
    rw [tail_of_live he hm, tail_of_live rfl hn, tail_of_live he (Nat.add_pos_left hm n)]
    refine concurs_of_mimics (fun c => .tail n (.tail m c)) (Act.andThen_assoc _ _ _) rfl
      (fun c w v hc => ?_) merged_mimics merged_mimicked fun _ _ _ _ _ _ _ _ => trivial
    have hc := cursor_orderly hs hc
    exact ⟨⟨m, n, c, hc, rfl, rfl⟩, ⟨trivial, hc.2⟩, ⟨trivial, hc.2⟩⟩

theorem limit_limit_replies (s : Stream W α) (m n : Nat) :
    ((s.limit m).limit n).replies = (s.limit (min m n)).replies := by
  rcases Nat.eq_zero_or_pos m with rfl | hm
  · rw [Nat.zero_min, limit_zero, limit_empty]
  rcases Nat.eq_zero_or_pos n with rfl | hn
  · rw [Nat.min_zero, limit_zero, limit_zero]
  cases he : s.knownEmpty with
  | true => rw [eq_empty he, limit_empty, limit_empty, limit_empty]
  | false =>
    rw [limit_of_live he hm, limit_of_live rfl hn, limit_of_live he (Nat.lt_min.mpr ⟨hm, hn⟩)]
    have hc : (capping n (capping m s)).cursor =
        s.cursor.andThen fun c => Act.done (.limit n (.limit m c)) := Act.andThen_assoc _ _ _
    exact replies_eq lockstep_limits (fun c => ⟨m, n, c, rfl, rfl⟩) hc rfl

theorem tail_limit_concurs (hs : s.Strides) (m : Nat) (hn : 0 < n) :
    ((s.tail m).limit n).Concurs Calm ((s.limit (m + n)).tail m) := by
  rcases Nat.eq_zero_or_pos m with rfl | hm
  · rw [tail_zero, tail_zero, Nat.zero_add]
    exact .refl _
  cases he : s.knownEmpty with
  | true =>
    rw [eq_empty he, tail_empty, limit_empty, limit_empty, tail_empty]
    exact .refl _
  | false =>
    rw [tail_of_live he hm, limit_of_live rfl hn, limit_of_live he (Nat.add_pos_left hm n),
      tail_of_live rfl hm]
    refine concurs_of_mimics (fun c => .limit n (.tail m c)) (Act.andThen_assoc _ _ _)
      (Act.andThen_assoc _ _ _) (fun c w v hc => ?_) windowed_mimics windowed_mimicked
      fun _ _ _ _ hm hr => hm.calm hr
    have hc := cursor_orderly hs hc
    exact ⟨⟨m, n, c, hc, fun h => absurd h (Nat.ne_of_gt hn), rfl, rfl⟩, ⟨trivial, hc.2⟩,
      ⟨trivial, hc.2⟩⟩

theorem limit_concat_tail_concurs (hs : s.Strides) (hi : s.Inert) (n : Nat) :
    ((s.limit n).concat (s.tail n)).Concurs (fun _ => True) s := by
  rcases Nat.eq_zero_or_pos n with rfl | hn
  · exact .refl _
  cases he : s.knownEmpty with
  | true =>
    rw [eq_empty he, limit_empty, tail_empty]
    exact .refl _
  | false =>
    rw [limit_of_live he hn, tail_of_live he hn, concat_of_live rfl rfl]
    intro w
    obtain ⟨c, ho, hi⟩ := hi
    have hc := cursor_orderly hs (ho w)
    have hl : ∀ w, (skipping n s).cursor w = (.ok (.tail n c), w) := fun w => by
      simp only [cursor, Act.andThen, ho, Act.done]
    have hj : (joining (capping n s) (skipping n s)).cursor w =
        (.ok (.first (.limit n c) (skipping n s)), w) := by
      simp only [cursor, Act.andThen, ho, Act.done]
    have hr : Rejoins c n (skipping n s) (.first (.limit n c) (skipping n s)) c :=
      ⟨hi, .inl ⟨0, n, Nat.zero_add n, fun _ => .here, rfl⟩⟩
    have hf : (Cursor.first (.limit n c) (skipping n s)).Orderly := ⟨trivial, hc.2⟩
    exact .inr ⟨_, c, w, hj, ho w, fun calls rs _ =>
      ⟨(rejoins_mimics hc hl).replies hr hf hc fun _ _ _ _ => trivial,
        (rejoins_mimicked hc hl).replies hr hc hf fun _ _ _ _ => trivial⟩⟩

/-- A caller cannot tell two stages that leave elements out from one that leaves out as many as
both, nor two limits from the smaller one, also when pulls panic. As long as none does, to leave
elements out and then to limit is to limit and then to leave out, with a limit that allows for what
is left out. And the elements on both sides of a cut are those of the stream, if to open and to pull
it has no effects. -/
theorem windows_compose (s : Stream W α) (hs : s.Strides) :
    (∀ m n, ((s.tail m).tail n).Concurs (fun _ => True) (s.tail (m + n))) ∧
      (∀ m n, ((s.limit m).limit n).replies = (s.limit (min m n)).replies) ∧
      (∀ m n, 0 < n → ((s.tail m).limit n).Concurs Calm ((s.limit (m + n)).tail m)) ∧
      (s.Inert → ∀ n, ((s.limit n).concat (s.tail n)).Concurs (fun _ => True) s) :=
  ⟨tail_tail_concurs hs, limit_limit_replies s, fun m _ hn => tail_limit_concurs hs m hn,
    limit_concat_tail_concurs hs⟩

/-- Two sessions in which the stages are seen to agree: one that panics while it leaves elements
out, and one with storage that is cut in the middle. -/
theorem windows_compose_runs :
    stumbling.Strides ∧ (ofArray #[7, 8, 9] : Stream Unit Nat).Inert ∧
      (∃ c, ((stumbling.tail 1).tail 1).cursor () = (.ok c, ()) ∧
        Settles (c.replies · () [.step, .advanceBy 1, .step])
          [(.error ⟨"stumbled"⟩, ()), (.ok (.advanced true), ()),
            (.ok (.stepped (.yield 3)), ())]) ∧
      (((ofArray #[7, 8, 9] : Stream Unit Nat).tail 1).limit 1).Concurs Calm
        (((ofArray #[7, 8, 9]).limit 2).tail 1) ∧
      ∃ c, (((ofArray #[7, 8, 9]).limit 1).concat ((ofArray #[7, 8, 9]).tail 1)).cursor () =
          (.ok c, ()) ∧
        Settles (c.replies · () [.step, .step, .advanceBy 5])
          [(.ok (.stepped (.yield 7)), ()), (.ok (.stepped (.yield 8)), ()),
            (.ok (.advanced false), ())] := by
  have hi : (ofArray #[7, 8, 9] : Stream Unit Nat).Inert := inert_ofArray _
  obtain ⟨ht, -⟩ := windows_compose stumbling rfl
  obtain ⟨-, -, hw, hj⟩ := windows_compose (ofArray #[7, 8, 9] : Stream Unit Nat) trivial
  refine ⟨rfl, hi, ?_, hw 1 1 Nat.one_pos, ?_⟩
  · rcases ht 1 1 () with ⟨p, v, -, hp⟩ | ⟨c, d, v, hc, hd, hr⟩
    · cases hp
    · cases hd
      refine ⟨c, hc, (hr _ _ trivial).mpr ⟨2, fun fuel hf => ?_⟩⟩
      obtain ⟨k, rfl⟩ := Nat.exists_eq_add_of_le' hf
      rfl
  · rcases hj hi 1 () with ⟨p, v, -, hp⟩ | ⟨c, d, v, hc, hd, hr⟩
    · cases hp
    · cases hd
      exact ⟨c, hc, (hr _ _ trivial).mpr (settles_of_first fun _ => rfl)⟩

end Stream

end PullStream
