import PullStream.Proofs.Cursor.Scan
import PullStream.Proofs.Cursor.Surrounding

/-!
# Exclusion and panics

The first step of an exclusion drains the other stream and keeps the keys, and from then on each step
looks for the next element of its own stream whose key is none of them. A drain that panics leaves
nothing behind: the next step begins it anew. `Excludes` says that of all the steps of a cursor, with
scans in the place of the loops, and by `Cursor.settles_replies_iff` it says so of all calls on it.
-/

set_option autoImplicit false

namespace PullStream

variable {W α κ : Type}

/-- The other stream is opened and pulled to its end, with `key` called for each of its elements. A
panic may come in between. -/
inductive Stream.Drained (key : α → Act W κ) (other : Stream W α) (w : W) :
    List (α × κ) → Except Panic (Step α) → W → Prop
  | unopened {p : Panic} {v : W} (h : other.cursor w = (.error p, v)) :
      Drained key other w [] (.error p) v
  | pulled {d e : Cursor W α} {v t : W} {l : List (α × κ)} {x : Except Panic (Step α)}
      (h : other.cursor w = (.ok d, v)) (hs : d.Scans key (fun _ => false) v l x e t) :
      Drained key other w l x t

theorem keys_cons (a : α) (k : κ) (pairs : List (α × κ)) (keys : List κ) :
    (pairs.map Prod.snd).reverse ++ k :: keys =
      (((a, k) :: pairs).map Prod.snd).reverse ++ keys := by
  rw [List.map_cons, List.reverse_cons, List.append_assoc, List.singleton_append]

section Keys

variable [DecidableEq κ]

def unlisted (keys : List κ) (k : κ) : Bool := decide (k ∉ keys)

theorem unlisted_congr {keys keys' : List κ} (h : ∀ k, k ∈ keys ↔ k ∈ keys') :
    unlisted keys = unlisted keys' := by
  funext k
  simp only [unlisted, h k]

end Keys

namespace Cursor

variable [DecidableEq κ]

/-- Steps each of which scans for the next element with a key that is not listed. -/
inductive Sifts (key : α → Act W κ) (keys : List κ) : Cursor W α → List (Pace W α) → Prop
  | nil {c : Cursor W α} : Sifts key keys c []
  | cons {c d : Cursor W α} {x : Pace W α} {passed : List (α × κ)} {l : List (Pace W α)}
      (hs : c.Scans key (unlisted keys) x.before passed x.outcome d x.after)
      (h : Sifts key keys d l) : Sifts key keys c (x :: l)

/-- The steps of an exclusion around `self`. As long as the other stream cannot be drained, steps
panic. The one that has drained it goes on to scan `self` from where it has been all the time, and
the later ones have nothing to do with the other stream. -/
inductive Excludes (key : α → Act W κ) (other : Stream W α) (self : Cursor W α) :
    List (Pace W α) → Prop
  | nil : Excludes key other self []
  | failed {x : Pace W α} {p : Panic} {pairs : List (α × κ)} {l : List (Pace W α)}
      (hd : other.Drained key x.before pairs (.error p) x.after) (hx : x.outcome = .error p)
      (h : Excludes key other self l) : Excludes key other self (x :: l)
  | drained {x : Pace W α} {pairs passed : List (α × κ)} {v : W} {d : Cursor W α}
      {l : List (Pace W α)} (hd : other.Drained key x.before pairs (.ok .done) v)
      (hs : self.Scans key (unlisted (pairs.map Prod.snd)) v passed x.outcome d x.after)
      (h : d.Sifts key (pairs.map Prod.snd) l) : Excludes key other self (x :: l)

variable {key : α → Act W κ} {other : Stream W α} {keys ks : List κ} {c d e : Cursor W α}
  {w v t : W} {l pairs passed : List (α × κ)} {x : Except Panic (Step α)}
  {r : Except Panic (Step α) × Cursor W α × W}

/-! ## Sifting -/

/-- What an exclusion that knows the keys makes of a move of its own stream. -/
def sifting (key : α → Act W κ) (keys : List κ) :
    Move α × Cursor W α × W → Move α × Cursor W α × W :=
  Moves.relay (excludeReady inferInstance key keys) fun a c w => match key a w with
    | (.ok k, w) =>
      (if k ∈ keys then .silent else .yield a, .excludeReady inferInstance key keys c, w)
    | (.error p, w) => (.panic p, .excludeReady inferInstance key keys c, w)

theorem ready_surrounds (key : α → Act W κ) (keys : List κ) :
    Surrounds (excludeReady inferInstance key keys) (sifting key keys) :=
  ⟨fun _ _ => rfl, fun _ _ => rfl⟩

theorem scans_of_step_ready {fuel : Nat}
    (h : (excludeReady inferInstance key keys c).step fuel w = some (x, e, t)) :
    ∃ passed d, c.Scans key (unlisted keys) w passed x d t ∧
      e = excludeReady inferInstance key keys d := by
  induction fuel using Nat.strongRecOn generalizing c w with
  | ind fuel ih =>
    obtain ⟨y, d, v, hc, f, u, less, hl, hf, hs⟩ := (ready_surrounds key keys).of_step h
    rw [step, hf] at hs
    rcases y with p | a | _
    · cases hs
      exact ⟨[], d, .panicked hc, rfl⟩
    · rcases hk : key a v with ⟨p | k, u⟩ <;> simp only [sifting, Move.ofStep, Moves.relay, hk] at hs
      · cases hs
        exact ⟨[], d, .refused hc hk, rfl⟩
      · by_cases hm : k ∈ keys
        · simp only [hm, if_true] at hs
          obtain ⟨passed, e, h, he⟩ := ih less hl hs
          exact ⟨(a, k) :: passed, e, .onward hc hk (decide_eq_false (not_not_intro hm)) h, he⟩
        · simp only [hm, if_false] at hs
          cases hs
          exact ⟨[(a, k)], d, .decided hc hk (decide_eq_true hm), rfl⟩
    · cases hs
      exact ⟨[], d, .ended hc, rfl⟩

theorem Scans.settles_ready (h : c.Scans key (unlisted keys) w passed x d t) :
    Settles ((excludeReady inferInstance key keys c).step · w)
      (x, excludeReady inferInstance key keys d, t) := by
  induction h with
  | ended hs => exact (ready_surrounds key keys).settles hs fun _ _ => settles_step_done
  | panicked hs => exact (ready_surrounds key keys).settles hs fun _ _ => settles_step_panic
  | refused hs hk =>
    refine (ready_surrounds key keys).settles hs fun f u hf => settles_step_panic ?_
    simpa only [sifting, Move.ofStep, Moves.relay, hk] using hf
  | decided hs hk hn =>
    refine (ready_surrounds key keys).settles hs fun f u hf => settles_step_yield ?_
    simpa only [sifting, Move.ofStep, Moves.relay, hk, of_decide_eq_true hn, if_false] using hf
  | onward hs hk hn _ ih =>
    refine (ready_surrounds key keys).settles hs fun f u hf => settles_step_silent ?_ ih
    have hm := Decidable.not_not.mp (of_decide_eq_false hn)
    simpa only [sifting, Move.ofStep, Moves.relay, hk, hm, if_true] using hf

/-- Of the keys it only matters which they are. -/
theorem settles_step_ready_iff (hk : ∀ k, k ∈ ks ↔ k ∈ keys) :
    Settles ((excludeReady inferInstance key ks c).step · w) (x, e, t) ↔
      ∃ passed d, c.Scans key (unlisted keys) w passed x d t ∧
        e = excludeReady inferInstance key ks d := by
  rw [← unlisted_congr hk]
  constructor
  · intro h
    obtain ⟨fuel, h⟩ := h.comes
    exact scans_of_step_ready h
  · rintro ⟨passed, d, h, rfl⟩
    exact h.settles_ready

theorem walks_ready_iff (hk : ∀ k, k ∈ ks ↔ k ∈ keys) {l : List (Pace W α)} :
    (∃ e, (excludeReady inferInstance key ks c).Walks l e) ↔ c.Sifts key keys l := by
  constructor
  · rintro ⟨e, h⟩
    induction l generalizing c with
    | nil => exact .nil
    | cons x l ih =>
      cases h with
      | cons hs h =>
        obtain ⟨passed, d, hd, rfl⟩ := (settles_step_ready_iff hk).mp hs
        exact .cons hd (ih h)
  · intro h
    induction h with
    | nil => exact ⟨_, .nil⟩
    | cons hs _ ih =>
      obtain ⟨e, h⟩ := ih
      exact ⟨e, .cons ((settles_step_ready_iff hk).mpr ⟨_, _, hs, rfl⟩) h⟩

/-! ## Draining -/

/-- What an exclusion that is about to drain makes of a move of the other stream. -/
def collecting (key : α → Act W κ) (other : Stream W α) (keys : List κ) (c : Cursor W α) :
    Move α × Cursor W α × W → Move α × Cursor W α × W
  | (.silent, d, w) => (.silent, .excludeDrain inferInstance key other d keys c, w)
  | (.yield a, d, w) => match key a w with
    | (.ok k, w) => (.silent, .excludeDrain inferInstance key other d (k :: keys) c, w)
    | (.error p, w) => (.panic p, .excludeFresh inferInstance key other c, w)
  | (.done, _, w) => (.silent, .excludeReady inferInstance key keys c, w)
  | (.panic p, _, w) => (.panic p, .excludeFresh inferInstance key other c, w)

theorem drain_surrounds (key : α → Act W κ) (other : Stream W α) (keys : List κ)
    (c : Cursor W α) :
    Surrounds (excludeDrain inferInstance key other · keys c) (collecting key other keys c) where
  tick d w := by
    rw [tick_excludeDrain]
    rcases d.tick w with ⟨_ | _ | _ | _, e, v⟩ <;> rfl
  silent _ _ := rfl

/-- What the step that drains comes to, by what the drain came to. -/
inductive AfterDrain (key : α → Act W κ) (other : Stream W α) (c : Cursor W α) (keys : List κ)
    (t : W) : Except Panic (Step α) → Except Panic (Step α) × Cursor W α × W → Prop
  | done {r : Except Panic (Step α) × Cursor W α × W}
      (h : Settles ((excludeReady inferInstance key keys c).step · t) r) :
      AfterDrain key other c keys t (.ok .done) r
  | panic {p : Panic} :
      AfterDrain key other c keys t (.error p) (.error p, excludeFresh inferInstance key other c, t)

theorem scans_of_step_drain {fuel : Nat}
    (h : (excludeDrain inferInstance key other d keys c).step fuel w = some r) :
    ∃ pairs x e t, d.Scans key (fun _ => false) w pairs x e t ∧
      AfterDrain key other c ((pairs.map Prod.snd).reverse ++ keys) t x r := by
  induction fuel using Nat.strongRecOn generalizing d keys w with
  | ind fuel ih =>
    obtain ⟨y, e, v, hd, f, u, less, hl, hf, hs⟩ := (drain_surrounds key other keys c).of_step h
    rw [step, hf] at hs
    rcases y with p | a | _
    · cases hs
      exact ⟨[], _, e, v, .panicked hd, .panic⟩
    · rcases hk : key a v with ⟨p | k, u⟩ <;> simp only [collecting, Move.ofStep, hk] at hs
      · cases hs
        exact ⟨[], _, e, u, .refused hd hk, .panic⟩
      · obtain ⟨pairs, x, f, t, hsc, hr⟩ := ih less hl hs
        rw [keys_cons a] at hr
        exact ⟨(a, k) :: pairs, x, f, t, .onward hd hk rfl hsc, hr⟩
    · exact ⟨[], _, e, v, .ended hd, .done (settles_of_step hs)⟩

theorem Scans.settles_drain (h : d.Scans key (fun _ => false) w pairs x e t)
    (hr : AfterDrain key other c ((pairs.map Prod.snd).reverse ++ keys) t x r) :
    Settles ((excludeDrain inferInstance key other d keys c).step · w) r := by
  have hs := drain_surrounds key other keys c
  induction h generalizing keys with
  | ended hd =>
    cases hr with
    | done h => exact hs.settles hd fun f u hf => settles_step_silent hf h
  | panicked hd =>
    cases hr
    exact hs.settles hd fun f u hf => settles_step_panic hf
  | refused hd hk =>
    cases hr
    refine hs.settles hd fun f u hf => settles_step_panic ?_
    simpa only [collecting, Move.ofStep, hk] using hf
  | decided _ _ hn => cases hn
  | onward hd hk _ _ ih =>
    rw [← keys_cons] at hr
    refine hs.settles hd fun f u hf => settles_step_silent ?_ (ih hr (drain_surrounds key other _ c))
    simpa only [collecting, Move.ofStep, hk] using hf

/-- A step without keys opens the other stream and drains it. -/
theorem settles_step_fresh_iff :
    Settles ((excludeFresh inferInstance key other c).step · w) r ↔
      ∃ pairs x t, other.Drained key w pairs x t ∧
        AfterDrain key other c (pairs.map Prod.snd).reverse t x r := by
  have hf := tick_excludeFresh inferInstance key other c w
  rcases ho : other.cursor w with ⟨p | d, v⟩ <;> simp only [Moves.opening, ho] at hf
  · have hp := settles_step_panic hf
    constructor
    · intro h
      cases h.unique hp
      exact ⟨[], _, v, .unopened ho, .panic⟩
    · rintro ⟨pairs, x, t, hd, hr⟩
      cases hd with
      | unopened h =>
        cases ho.symm.trans h
        cases hr
        exact hp
      | pulled h => cases ho.symm.trans h
  · constructor
    · intro h
      obtain ⟨_ | fuel, h⟩ := h.comes
      · cases h
      · rw [step, hf] at h
        obtain ⟨pairs, x, e, t, hs, hr⟩ := scans_of_step_drain h
        rw [List.append_nil] at hr
        exact ⟨pairs, x, t, .pulled ho hs, hr⟩
    · rintro ⟨pairs, x, t, hd, hr⟩
      cases hd with
      | unopened h => cases ho.symm.trans h
      | pulled h hs =>
        cases ho.symm.trans h
        rw [← List.append_nil (List.reverse _)] at hr
        exact settles_step_silent hf (hs.settles_drain hr)

theorem walks_fresh_iff {l : List (Pace W α)} :
    (∃ e, (excludeFresh inferInstance key other c).Walks l e) ↔ c.Excludes key other l := by
  have hm : ∀ (pairs : List (α × κ)) k,
      k ∈ (pairs.map Prod.snd).reverse ↔ k ∈ pairs.map Prod.snd := fun _ _ => List.mem_reverse
  constructor
  · rintro ⟨e, h⟩
    induction l with
    | nil => exact .nil
    | cons x l ih =>
      cases h with
      | cons hs h =>
        obtain ⟨pairs, y, t, hd, hr⟩ := settles_step_fresh_iff.mp hs
        generalize hxr : (x.outcome, _, x.after) = r at hr
        cases hr with
        | done hr =>
          subst hxr
          obtain ⟨passed, d, hsc, rfl⟩ := (settles_step_ready_iff (hm pairs)).mp hr
          exact .drained hd hsc ((walks_ready_iff (hm pairs)).mp ⟨e, h⟩)
        | panic =>
          obtain ⟨hx, rfl, rfl⟩ := Prod.mk.inj hxr |>.imp_right Prod.mk.inj
          exact .failed hd hx (ih h)
  · intro h
    induction h with
    | nil => exact ⟨_, .nil⟩
    | @failed x p pairs l hd hx _ ih =>
      obtain ⟨e, h⟩ := ih
      refine ⟨e, .cons (settles_step_fresh_iff.mpr ⟨pairs, _, _, hd, ?_⟩) h⟩
      rw [hx]
      exact .panic
    | @drained x pairs passed v d l hd hs h =>
      obtain ⟨e, h⟩ := (walks_ready_iff (hm pairs)).mpr h
      have hr := (settles_step_ready_iff (hm pairs)).mpr ⟨passed, d, hs, rfl⟩
      exact ⟨e, .cons (settles_step_fresh_iff.mpr ⟨pairs, _, _, hd, .done hr⟩) h⟩

end Cursor

open Cursor

variable [DecidableEq κ]

/-- To open an exclusion is to open its own stream. Whatever is called on the cursor then takes the
steps that `Excludes` tells of: nothing is pulled from its own stream, and so nothing is passed over
or yielded, before one drain of the other stream has come to the end; of a drain that panicked no key
is kept, and none comes after the one that did not. -/
theorem exclusion_drains_first (key : α → Act W κ) {s other : Stream W α}
    (hs : s.knownEmpty = false) (ho : other.knownEmpty = false) (w : W) :
    (∃ p v, s.cursor w = (.error p, v) ∧ (s.excludeBy key other).cursor w = (.error p, v)) ∨
      ∃ self c v, s.cursor w = (.ok self, v) ∧ (s.excludeBy key other).cursor w = (.ok c, v) ∧
        ∀ calls rs, Settles (c.replies · v calls) rs ↔
          ∃ l, self.Excludes key other l ∧ Made v calls l rs := by
  have he : s.excludeBy key other = .excluding inferInstance key other s := by
    simp only [Stream.excludeBy, hs, ho, Bool.or_self, Bool.false_eq_true, if_false]
  simp only [he, Stream.cursor, Act.andThen]
  rcases hc : s.cursor w with ⟨p | self, v⟩
  · exact .inl ⟨p, v, rfl, rfl⟩
  · have hi := s.cursor_inBounds hc
    have hb : (excludeFresh inferInstance key other self).InBounds := hi
    have hd : (excludeFresh inferInstance key other self).Strides := trivial
    refine .inr ⟨self, _, v, rfl, rfl, fun calls rs => ?_⟩
    rw [settles_replies_iff hd hb]
    constructor
    · rintro ⟨l, e, h, hm⟩
      exact ⟨l, walks_fresh_iff.mp ⟨e, h⟩, hm⟩
    · rintro ⟨l, h, hm⟩
      obtain ⟨e, h⟩ := walks_fresh_iff.mpr h
      exact ⟨l, e, h, hm⟩

/-- Hands out a two in every session. The first session ever opened then panics, and the world counts
how many there were. -/
def reluctant : Stream Nat Nat :=
  .source (fun opened => (.ok (opened, 0), opened + 1)) ⟨fun (session, pulls) w =>
    (if pulls = 0 then .ok (.yield 2) else if session = 0 then .error ⟨"reluctant"⟩ else .ok .done,
      (session, pulls + 1), w), none, false⟩

/-- The first drain panics behind an element, and the second is made from the beginning. -/
theorem exclusion_drains_first_reluctant :
    ∃ self, (Stream.ofArray #[1, 2, 3]).cursor 0 = (.ok self, 0) ∧ ∃ l,
      self.Excludes Act.done reluctant l ∧ Made 0 [.step, .step, .step, .step] l
        [(.error ⟨"reluctant"⟩, 1), (.ok (.stepped (.yield 1)), 2), (.ok (.stepped (.yield 3)), 2),
          (.ok (.stepped .done), 2)] := by
  let s : Stream Nat Nat := .ofArray #[1, 2, 3]
  have hs : s.knownEmpty = false := rfl
  have ho : reluctant.knownEmpty = false := rfl
  have he : (s.excludeBy Act.done reluctant).cursor 0 =
      (.ok (.excludeFresh inferInstance Act.done reluctant (.slice #[1, 2, 3] 0)), 0) := rfl
  rcases exclusion_drains_first Act.done hs ho 0 with
    ⟨p, v, h, -⟩ | ⟨self, c, v, h, hc, hr⟩
  · cases h
  · cases hc.symm.trans he
    refine ⟨self, h, (hr _ _).mp ⟨10, fun fuel hf => ?_⟩⟩
    obtain ⟨n, rfl⟩ := Nat.exists_eq_add_of_le' hf
    rfl

end PullStream
