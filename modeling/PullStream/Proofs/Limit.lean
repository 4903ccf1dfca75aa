import PullStream.Proofs.Cursor.Surrounding
import PullStream.Proofs.Cursor.Walk

/-!
# A limit on the steps of a source

A limited cursor counts down before it steps its source, so a step that panics has used up its turn,
and the end of the source uses up all turns that are left. `Caps` says what the steps of a limited
cursor are in terms of the steps of the source. It holds for every run of them, and by
`Cursor.settles_replies_iff` for every sequence of calls.
-/

set_option autoImplicit false

namespace PullStream

variable {W α : Type}

namespace Cursor

/-- What the steps of a cursor come to that is limited to `max` steps of its source: `taken` are
steps of the source, of which only the last may report its end, and `idle` is what follows when no
more may be taken. -/
structure Caps (max : Nat) (source : Cursor W α) (taken idle : List (Pace W α))
    (left : Cursor W α) : Prop where
  walks : source.Walks taken left
  bound : taken.length ≤ max
  live : ∀ x ∈ taken.dropLast, x.ended = false
  spent : idle ≠ [] → taken.length = max ∨ ∃ x ∈ taken, x.ended
  idle : ∀ x ∈ idle, x.Idle

variable {c d e : Cursor W α} {n : Nat} {w v : W} {l taken idle : List (Pace W α)} {x : Pace W α}

/-- How many steps are left when one was taken with `n` others left. -/
def turns (x : Pace W α) (n : Nat) : Nat := if x.ended then 0 else n

/-- What a limited cursor makes of a move of its source. -/
def capping (n : Nat) : Move α × Cursor W α × W → Move α × Cursor W α × W
  | (.silent, c, w) => (.silent, .limit (n + 1) c, w)
  | (.yield a, c, w) => (.yield a, .limit n c, w)
  | (.done, c, w) => (.done, .limit 0 c, w)
  | (.panic p, c, w) => (.panic p, .limit n c, w)

theorem limit_surrounds (n : Nat) :
    Surrounds (limit (n + 1)) (capping (W := W) (α := α) n) where
  tick c w := by
    rw [tick_limit_succ]
    rcases c.tick w with ⟨_ | _ | _ | _, d, v⟩ <;> rfl
  silent _ _ := rfl

/-- The last move of a step of the source ends the step of the limited cursor in the same way. -/
theorem step_capping {fuel : Nat} (he : e.tick w = capping n (.ofStep x.outcome, d, x.after)) :
    e.step (fuel + 1) w = some (x.outcome, limit (turns x n) d, x.after) := by
  obtain ⟨before, outcome, after⟩ := x
  rw [step, he]
  rcases outcome with p | a | _ <;> rfl

theorem settles_step_limit_iff {x : Pace W α} :
    Settles ((limit (n + 1) c).step · x.before) (x.outcome, e, x.after) ↔
      ∃ d, Settles (c.step · x.before) (x.outcome, d, x.after) ∧ e = limit (turns x n) d := by
  constructor
  · intro h
    obtain ⟨fuel, h⟩ := h.comes
    obtain ⟨y, d, v, hc, f, u, less, -, ht, hs⟩ := (limit_surrounds n).of_step h
    let z : Pace W α := ⟨x.before, y, v⟩
    have hz : f.tick u = capping n (.ofStep z.outcome, d, z.after) := ht
    rw [step_capping hz] at hs
    cases hs
    exact ⟨d, hc, rfl⟩
  · rintro ⟨d, hc, rfl⟩
    exact (limit_surrounds n).settles hc fun f u hf =>
      settles_of_first fun _ => step_capping hf

theorem settles_step_limit_zero (c : Cursor W α) (w : W) :
    Settles ((limit 0 c).step · w) (.ok .done, limit 0 c, w) :=
  settles_step_done (tick_limit_zero c w)

theorem walks_limit_zero_iff : (limit 0 c).Walks l e ↔ e = limit 0 c ∧ ∀ x ∈ l, x.Idle := by
  constructor
  · intro h
    generalize hd : limit 0 c = d at h
    induction h with
    | nil => exact ⟨rfl, nofun⟩
    | @cons _ _ _ x l hs _ ih =>
      subst hd
      have hx := hs.unique (settles_step_limit_zero c x.before)
      obtain ⟨before, outcome, after⟩ := x
      cases hx
      obtain ⟨he, hl⟩ := ih rfl
      exact ⟨he, List.forall_mem_cons.mpr ⟨⟨rfl, rfl⟩, hl⟩⟩
  · rintro ⟨rfl, hl⟩
    induction l with
    | nil => exact .nil
    | cons x l ih =>
      obtain ⟨⟨hx, hw⟩, hi⟩ := List.forall_mem_cons.mp hl
      obtain ⟨before, _ | _ | _, after⟩ := x
      · cases hx
      · cases hx
      · obtain rfl : after = before := hw
        exact .cons (settles_step_limit_zero c _) (ih hi)

theorem Caps.zero (c : Cursor W α) (h : ∀ x ∈ idle, x.Idle) : Caps 0 c [] idle c :=
  ⟨.nil, Nat.le_refl 0, nofun, fun _ => .inl rfl, h⟩

/-- The source ended with its first step. -/
theorem Caps.ended (hs : Settles (c.step · x.before) (x.outcome, d, x.after)) (hx : x.ended)
    (h : ∀ x ∈ idle, x.Idle) : Caps (n + 1) c [x] idle d :=
  ⟨.cons hs .nil, Nat.succ_le_succ (Nat.zero_le n), nofun,
    fun _ => .inr ⟨x, List.mem_singleton_self x, hx⟩, h⟩

theorem Caps.cons (hs : Settles (c.step · x.before) (x.outcome, d, x.after)) (hx : x.ended = false)
    (h : Caps n d taken idle e) : Caps (n + 1) c (x :: taken) idle e where
  walks := .cons hs h.walks
  bound := Nat.succ_le_succ h.bound
  live y hy := by
    cases taken with
    | nil => cases hy
    | cons z taken =>
      rcases List.mem_cons.mp hy with rfl | hy
      · exact hx
      · exact h.live y hy
  spent hi := by
    rcases h.spent hi with hl | ⟨y, hy, he⟩
    · exact .inl (congrArg (· + 1) hl)
    · exact .inr ⟨y, List.mem_cons_of_mem x hy, he⟩
  idle := h.idle

/-- The first step taken from the source either ended it or leaves one turn less. -/
theorem Caps.uncons (h : Caps n c (x :: taken) idle e) :
    ∃ m d, n = m + 1 ∧ Settles (c.step · x.before) (x.outcome, d, x.after) ∧
      if x.ended then taken = [] ∧ d = e else Caps m d taken idle e := by
  obtain ⟨hw, hb, hl, hs, hi⟩ := h
  obtain _ | m := n
  · cases hb
  cases hw with
  | @cons _ d _ _ _ hx hw =>
    refine ⟨m, d, rfl, hx, ?_⟩
    cases he : x.ended with
    | true =>
      cases taken with
      | nil =>
        cases hw
        exact ⟨rfl, rfl⟩
      | cons y taken =>
        have hf := hl x List.mem_cons_self
        rw [he] at hf
        cases hf
    | false =>
      refine ⟨hw, Nat.le_of_succ_le_succ hb, fun y hy => ?_, fun hn => ?_, hi⟩
      · cases taken with
        | nil => cases hy
        | cons z taken => exact hl y (List.mem_cons_of_mem x hy)
      · rcases hs hn with hl | ⟨y, hy, hye⟩
        · exact .inl (Nat.succ.inj hl)
        · rcases List.mem_cons.mp hy with rfl | hy
          · rw [he] at hye
            cases hye
          · exact .inr ⟨y, hy, hye⟩

/-- Not more steps than allowed yield an element or panic. -/
theorem Caps.count_le (h : Caps n c taken idle d) : (taken ++ idle).countP (!·.ended) ≤ n := by
  have hi : idle.countP (!·.ended) = 0 := by
    rw [List.countP_eq_zero]
    intro x hx
    simp only [(h.idle x hx).1, Bool.not_true, Bool.false_eq_true, not_false_iff]
  calc (taken ++ idle).countP (!·.ended)
      = taken.countP (!·.ended) := by rw [List.countP_append, hi, Nat.add_zero]
    _ ≤ taken.length := List.countP_le_length
    _ ≤ n := h.bound

theorem caps_of_walks (h : (limit n c).Walks l e) :
    ∃ taken idle d, l = taken ++ idle ∧ Caps n c taken idle d := by
  induction l generalizing n c with
  | nil => exact ⟨[], [], c, rfl, .nil, Nat.zero_le n, nofun, nofun, nofun⟩
  | cons x l ih =>
    cases n with
    | zero => exact ⟨[], x :: l, c, rfl, .zero c (walks_limit_zero_iff.mp h).2⟩
    | succ n =>
      cases h with
      | cons hl h =>
        obtain ⟨d, hs, rfl⟩ := settles_step_limit_iff.mp hl
        rw [turns] at h
        cases hx : x.ended with
        | true =>
          simp only [hx, if_true] at h
          exact ⟨[x], l, d, rfl, .ended hs hx (walks_limit_zero_iff.mp h).2⟩
        | false =>
          simp only [hx, Bool.false_eq_true, if_false] at h
          obtain ⟨taken, idle, f, rfl, hc⟩ := ih h
          exact ⟨x :: taken, idle, f, rfl, hc.cons hs hx⟩

theorem Caps.walks_limit (h : Caps n c taken idle d) : ∃ e, (limit n c).Walks (taken ++ idle) e := by
  induction taken generalizing n c with
  | nil =>
    by_cases hi : idle = []
    · subst hi
      exact ⟨limit n c, .nil⟩
    · rcases h.spent hi with hn | ⟨x, hx, -⟩
      · subst hn
        exact ⟨limit 0 c, walks_limit_zero_iff.mpr ⟨rfl, h.idle⟩⟩
      · cases hx
  | cons x taken ih =>
    have hi := h.idle
    obtain ⟨m, f, rfl, hs, hx⟩ := h.uncons
    have hl : Settles ((limit (m + 1) c).step · x.before)
        (x.outcome, limit (turns x m) f, x.after) := settles_step_limit_iff.mpr ⟨f, hs, rfl⟩
    rw [turns] at hl
    cases he : x.ended with
    | true =>
      simp only [he, if_true] at hx hl
      obtain ⟨rfl, rfl⟩ := hx
      exact ⟨limit 0 f, .cons hl (walks_limit_zero_iff.mpr ⟨rfl, hi⟩)⟩
    | false =>
      simp only [he, Bool.false_eq_true, if_false] at hx hl
      obtain ⟨e, hw⟩ := ih hx
      exact ⟨e, .cons hl hw⟩

/-- The calls on a limited cursor take steps from its source as `Caps` says, whatever is called. -/
theorem settles_replies_limit_iff (hb : c.InBounds) (max : Nat) (w : W) (calls : List (Call W))
    (rs : List (Except Panic (Reply α) × W)) :
    Settles ((limit max c).replies · w calls) rs ↔
      ∃ taken idle d, Caps max c taken idle d ∧ Made w calls (taken ++ idle) rs := by
  have hs : (limit max c).Strides := trivial
  rw [settles_replies_iff hs hb]
  constructor
  · rintro ⟨l, e, h, hm⟩
    obtain ⟨taken, idle, d, rfl, hc⟩ := caps_of_walks h
    exact ⟨taken, idle, d, hc, hm⟩
  · rintro ⟨taken, idle, d, hc, hm⟩
    obtain ⟨e, h⟩ := hc.walks_limit
    exact ⟨_, e, h, hm⟩

/-- The empty cursor cannot be told from one that takes from it up to a limit. -/
theorem lockstep_empty :
    Lockstep fun c d : Cursor W α => c = .empty ∧ ∃ n, d = limit n .empty := by
  apply Lockstep.of_tick
  · rintro _ _ ⟨rfl, n, rfl⟩
    exact ⟨id, id⟩
  · rintro _ _ ⟨rfl, _ | n, rfl⟩ w <;> exact ⟨rfl, ⟨rfl, 0, rfl⟩, rfl⟩

end Cursor

open Cursor

/-- What is called on a cursor of a limited stream takes at most `max` steps from the source, up to
the first that reports the end, and hands them on as they are. When no more may be taken, every step
is the end and does nothing else. So never more than `max` steps yield an element or panic. -/
theorem limit_bounds_pulls {s : Stream W α} {max : Nat} {c : Cursor W α} {w v : W}
    (h : (s.limit max).cursor w = (.ok c, v)) :
    ∃ source, (max = 0 ∧ v = w ∨ s.cursor w = (.ok source, v)) ∧
      (∀ calls rs, Settles (c.replies · v calls) rs ↔
        ∃ taken idle left, Caps max source taken idle left ∧ Made v calls (taken ++ idle) rs) ∧
      ∀ taken idle left, Caps max source taken idle left →
        (taken ++ idle).countP (!·.ended) ≤ max := by
  rw [Stream.limit] at h
  split at h
  · next he =>
    cases h
    refine ⟨.empty, ?_, fun calls rs => ?_, fun _ _ _ hc => hc.count_le⟩
    · rcases Bool.or_eq_true_iff.mp he with hm | hk
      · exact .inl ⟨of_decide_eq_true hm, rfl⟩
      · cases s with
        | empty => exact .inr rfl
        | _ => cases hk
    · have hr : ∀ fuel, (empty : Cursor W α).replies fuel w calls =
          (limit max empty).replies fuel w calls :=
        fun fuel => lockstep_empty.replies ⟨rfl, max, rfl⟩ fuel w calls
      have hb : (empty : Cursor W α).InBounds := trivial
      simp only [hr]
      exact settles_replies_limit_iff hb max w calls rs
  · obtain ⟨d, u, hd, hc⟩ := Act.andThen_ok h
    cases hc
    exact ⟨d, .inr hd, settles_replies_limit_iff (s.cursor_inBounds hd) max v,
      fun _ _ _ hc => hc.count_le⟩

/-- Hands out the numbers from 0 on without end, but every third pull panics. -/
def stumbling : Stream Unit Nat :=
  .source (Act.done 0) ⟨fun n w =>
    (if n % 3 = 1 then .error ⟨"stumbled"⟩ else .ok (.yield n), n + 1, w), none, false⟩

/-- The panic uses up the second of two turns. -/
theorem limit_bounds_pulls_stumbling :
    ∃ source, stumbling.cursor () = (.ok source, ()) ∧ ∃ taken idle left,
      Caps 2 source taken idle left ∧ (taken ++ idle).countP (!·.ended) ≤ 2 ∧
        Made () [.step, .advanceBy 1, .step] (taken ++ idle)
          [(.ok (.stepped (.yield 0)), ()), (.error ⟨"stumbled"⟩, ()), (.ok (.stepped .done), ())] := by
  have hc : (stumbling.limit 2).cursor () = (.ok (.limit 2 _), ()) := rfl
  obtain ⟨source, ho, hr, hn⟩ := limit_bounds_pulls hc
  rcases ho with ⟨h, -⟩ | ho
  · cases h
  · obtain ⟨taken, idle, left, hcaps, hm⟩ :=
      (hr [.step, .advanceBy 1, .step] _).mp (settles_of_first fun _ => rfl)
    exact ⟨source, ho, taken, idle, left, hcaps, hn taken idle left hcaps, hm⟩

end PullStream
