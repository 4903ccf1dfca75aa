import PullStream.Proofs.Cursor.Skipping
import PullStream.Proofs.Cursor.Termination

/-!
# To advance is to step

`advanceBy` jumps over storage, is passed on by a cursor around another session and steps everywhere
else. `advanceByStep` knows of none of that and only steps. `Crosses` says move by move what both of
them come to, so they settle on the same answers, in the same worlds and with the same cursors left
behind; `nth` goes on from there.
-/

set_option autoImplicit false

namespace PullStream

universe u

section Stepping

variable {W α : Type} {σ : Type u}

/-- Steps until `n` elements were yielded, and answers whether the end did not come first. -/
def advanceByStep (step : σ → W → Option (Except Panic (Step α) × σ × W)) :
    Nat → σ → W → Option (Except Panic Bool × σ × W)
  | 0, s, w => some (.ok true, s, w)
  | n+1, s, w =>
    match step s w with
    | none => none
    | some (.ok (.yield _), s, w) => advanceByStep step n s w
    | some (.ok .done, s, w) => some (.ok false, s, w)
    | some (.error p, s, w) => some (.error p, s, w)

/-- Asks for the next element until `n + 1` elements were returned or there is none. -/
def nthByNext (next : σ → W → Option (Except Panic (Option α) × σ × W)) :
    Nat → σ → W → Option (Except Panic (Option α) × σ × W)
  | 0, s, w => next s w
  | n+1, s, w =>
    match next s w with
    | some (.ok (some _), s, w) => nthByNext next n s w
    | other => other

/-- What comes of leaving elements out for the sake of the one behind them. -/
def landing (next : σ → W → Option (Except Panic (Option α) × σ × W)) :
    Except Panic Bool × σ × W → Option (Except Panic (Option α) × σ × W)
  | (.ok true, s, w) => next s w
  | (.ok false, s, w) => some (.ok none, s, w)
  | (.error p, s, w) => some (.error p, s, w)

theorem nthByNext_eq {step : σ → W → Option (Except Panic (Step α) × σ × W)}
    {next : σ → W → Option (Except Panic (Option α) × σ × W)}
    (h : ∀ s w, next s w = (step s w).map fun (r, s, w) => (r.map Step.toOption, s, w))
    (n : Nat) (s : σ) (w : W) :
    nthByNext next n s w = (advanceByStep step n s w).bind (landing next) := by
  induction n generalizing s w with
  | zero => rfl
  | succ n ih =>
    rw [nthByNext, advanceByStep, h]
    rcases step s w with _ | ⟨_ | _ | _, s, w⟩
    · rfl
    · rfl
    · exact ih s w
    · rfl

section Around

variable {τ : Type u} (around : σ → τ)

/-- A state around another one that steps as that one does also advances as it does. -/
theorem advanceByStep_around {step : σ → W → Option (Except Panic (Step α) × σ × W)}
    {outer : τ → W → Option (Except Panic (Step α) × τ × W)}
    (h : ∀ s w, outer (around s) w = (step s w).map fun (r, s, w) => (r, around s, w))
    (n : Nat) (s : σ) (w : W) :
    advanceByStep outer n (around s) w =
      (advanceByStep step n s w).map fun (r, s, w) => (r, around s, w) := by
  induction n generalizing s w with
  | zero => rfl
  | succ n ih =>
    rw [advanceByStep, advanceByStep, h]
    rcases step s w with _ | ⟨_ | _ | _, s, w⟩
    · rfl
    · rfl
    · exact ih s w
    · rfl

theorem nthByNext_around {next : σ → W → Option (Except Panic (Option α) × σ × W)}
    {outer : τ → W → Option (Except Panic (Option α) × τ × W)}
    (h : ∀ s w, outer (around s) w = (next s w).map fun (r, s, w) => (r, around s, w))
    (n : Nat) (s : σ) (w : W) :
    nthByNext outer n (around s) w =
      (nthByNext next n s w).map fun (r, s, w) => (r, around s, w) := by
  induction n generalizing s w with
  | zero => exact h s w
  | succ n ih =>
    rw [nthByNext, nthByNext, h]
    rcases next s w with _ | ⟨_ | _ | _, s, w⟩
    · rfl
    · rfl
    · rfl
    · exact ih s w

end Around

end Stepping

variable {W α : Type}

/-- Of two ways to begin a run that settle on the same answers, either may be taken. -/
theorem settles_bind_of {β γ : Type u} {f g : Nat → Option β} {h : Nat → β → Option γ} {r : γ}
    (hfg : ∀ fuel b, f fuel = some b → Settles g b)
    (hs : Settles (fun fuel => (f fuel).bind (h fuel)) r) :
    Settles (fun fuel => (g fuel).bind (h fuel)) r := by
  obtain ⟨least, hl⟩ := hs
  obtain ⟨b, hb, -⟩ := Option.bind_eq_some_iff.mp (hl least (Nat.le_refl least))
  have hg := hfg least b hb
  refine settles_of_both hg ⟨least, fun fuel hf => ?_⟩ fun fuel hgf (hh : h fuel b = some r) => ?_
  · obtain ⟨b', hb', hr⟩ := Option.bind_eq_some_iff.mp (hl fuel hf)
    rwa [(hfg fuel b' hb').unique hg] at hr
  · rw [hgf]
    exact hh

/-- No source that a skip is passed on to has a jump of its own. Sources below the other stages are
stepped, so nothing is asked of them. -/
def Stream.Strides : {α : Type} → Stream W α → Prop
  | _, .source _ src => src.jump = none
  | _, .fused s => s.Strides
  | _, .deferred _ book => ∀ i, (book i).Strides
  | _, _ => True

theorem Stream.cursor_strides (s : Stream W α) (hs : s.Strides) {c : Cursor W α} {w w' : W}
    (h : s.cursor w = (.ok c, w')) : c.Strides := by
  induction s generalizing w w' with
  | empty | items => cases h; trivial
  | source start src =>
    obtain ⟨s, v, -, hc⟩ := Act.andThen_ok h
    cases hc
    exact hs
  | fused s ih =>
    obtain ⟨d, v, hd, hc⟩ := Act.andThen_ok h
    cases hc
    have hc := ih hs hd
    exact hc
  | deferred start book ih =>
    obtain ⟨i, v, -, hi⟩ := Act.andThen_ok h
    exact ih i (hs i) hi
  | mapping | filtering | choosing | joining | skipping | capping | deduplicating | excluding
  | flattening | descending =>
    obtain ⟨d, v, -, hc⟩ := Act.andThen_ok h
    cases hc
    trivial

namespace Cursor

open Moves Relation

theorem ascend_strides {c : Cursor W α} (h : c.Strides) : c.ascend.Strides := by
  cases c with
  | descend => trivial
  | _ => exact h

/-- The moves over the next `n` elements, up to the last of them, the end or a panic. -/
inductive Crosses : Cursor W α → Nat → W → Except Panic Bool × Cursor W α × W → Prop
  | here {c : Cursor W α} {w : W} : Crosses c 0 w (.ok true, c, w)
  | silent {n : Nat} {c d : Cursor W α} {w v : W} {r : Except Panic Bool × Cursor W α × W}
      (h : c.tick w = (.silent, d, v)) (hr : Crosses d (n + 1) v r) : Crosses c (n + 1) w r
  | yield {n : Nat} {a : α} {c d : Cursor W α} {w v : W} {r : Except Panic Bool × Cursor W α × W}
      (h : c.tick w = (.yield a, d, v)) (hr : Crosses d n v r) : Crosses c (n + 1) w r
  | done {n : Nat} {c d : Cursor W α} {w v : W} (h : c.tick w = (.done, d, v)) :
      Crosses c (n + 1) w (.ok false, d, v)
  | panic {n : Nat} {p : Panic} {c d : Cursor W α} {w v : W} (h : c.tick w = (.panic p, d, v)) :
      Crosses c (n + 1) w (.error p, d, v)

variable {c d : Cursor W α} {n : Nat} {w v : W} {r r' : Except Panic Bool × Cursor W α × W}

theorem Crosses.unique (h : Crosses c n w r) (h' : Crosses c n w r') : r = r' := by
  induction h with
  | here => cases h'; rfl
  | silent ht _ ih =>
    cases h' with
    | silent ht' hr =>
      cases ht.symm.trans ht'
      exact ih hr
    | yield ht' | done ht' | panic ht' => cases ht.symm.trans ht'
  | yield ht _ ih =>
    cases h' with
    | yield ht' hr =>
      cases ht.symm.trans ht'
      exact ih hr
    | silent ht' | done ht' | panic ht' => cases ht.symm.trans ht'
  | done ht =>
    cases h' with
    | done ht' =>
      cases ht.symm.trans ht'
      rfl
    | silent ht' | yield ht' | panic ht' => cases ht.symm.trans ht'
  | panic ht =>
    cases h' with
    | panic ht' =>
      cases ht.symm.trans ht'
      rfl
    | silent ht' | yield ht' | done ht' => cases ht.symm.trans ht'

/-! ## By steps -/

theorem crosses_of_step_yield {a : α} {fuel : Nat}
    (hs : c.step fuel w = some (.ok (.yield a), d, v)) (hr : Crosses d n v r) : Crosses c (n + 1) w r := by
  induction fuel generalizing c w with
  | zero => cases hs
  | succ fuel ih =>
    rw [step] at hs
    rcases ht : c.tick w with ⟨_ | b | _ | p, e, u⟩ <;> rw [ht] at hs
    · exact .silent ht (ih hs)
    · cases hs
      exact .yield ht hr
    · cases hs
    · cases hs

theorem crosses_of_step_done {fuel : Nat} (hs : c.step fuel w = some (.ok .done, d, v)) :
    Crosses c (n + 1) w (.ok false, d, v) := by
  induction fuel generalizing c w with
  | zero => cases hs
  | succ fuel ih =>
    rw [step] at hs
    rcases ht : c.tick w with ⟨_ | b | _ | p, e, u⟩ <;> rw [ht] at hs
    · exact .silent ht (ih hs)
    · cases hs
    · cases hs
      exact .done ht
    · cases hs

theorem crosses_of_step_panic {p : Panic} {fuel : Nat}
    (hs : c.step fuel w = some (.error p, d, v)) :
    Crosses c (n + 1) w (.error p, d, v) := by
  induction fuel generalizing c w with
  | zero => cases hs
  | succ fuel ih =>
    rw [step] at hs
    rcases ht : c.tick w with ⟨_ | b | _ | p, e, u⟩ <;> rw [ht] at hs
    · exact .silent ht (ih hs)
    · cases hs
    · cases hs
    · cases hs
      exact .panic ht

theorem crosses_of_advanceByStep {fuel : Nat}
    (h : advanceByStep (step fuel) n c w = some r) : Crosses c n w r := by
  induction n generalizing c w with
  | zero =>
    cases h
    exact .here
  | succ n ih =>
    rw [advanceByStep] at h
    rcases hs : c.step fuel w with _ | ⟨_ | _ | _, d, v⟩ <;> rw [hs] at h
    · cases h
    · cases h
      exact crosses_of_step_panic hs
    · exact crosses_of_step_yield hs (ih h)
    · cases h
      exact crosses_of_step_done hs

/-- What the first step towards leaving elements out comes to. -/
theorem Crosses.first_step (h : Crosses c (n + 1) w r) :
    (∃ a d v, Settles (c.step · w) (.ok (.yield a), d, v) ∧ Crosses d n v r) ∨
    (∃ d v, Settles (c.step · w) (.ok .done, d, v) ∧ r = (.ok false, d, v)) ∨
    ∃ p d v, Settles (c.step · w) (.error p, d, v) ∧ r = (.error p, d, v) := by
  generalize hm : n + 1 = m at h
  induction h with
  | here => cases hm
  | silent ht _ ih =>
    rcases ih hm with ⟨a, e, u, hs, hr⟩ | ⟨e, u, hs, hr⟩ | ⟨p, e, u, hs, hr⟩
    · exact .inl ⟨a, e, u, settles_step_silent ht hs, hr⟩
    · exact .inr (.inl ⟨e, u, settles_step_silent ht hs, hr⟩)
    · exact .inr (.inr ⟨p, e, u, settles_step_silent ht hs, hr⟩)
  | yield ht hr =>
    cases hm
    exact .inl ⟨_, _, _, settles_step_yield ht, hr⟩
  | done ht => exact .inr (.inl ⟨_, _, settles_step_done ht, rfl⟩)
  | panic ht => exact .inr (.inr ⟨_, _, _, settles_step_panic ht, rfl⟩)

theorem Crosses.settles_advanceByStep (h : Crosses c n w r) :
    Settles (fun fuel => advanceByStep (step fuel) n c w) r := by
  induction n generalizing c w with
  | zero =>
    cases h
    exact settles_of_first fun _ => rfl
  | succ n ih =>
    rcases h.first_step with ⟨a, d, v, hs, hr⟩ | ⟨d, v, hs, rfl⟩ | ⟨p, d, v, hs, rfl⟩
    · exact settles_of_both hs (ih hr) fun fuel hf hg => by rw [advanceByStep, hf]; exact hg
    · exact settles_of_both hs hs fun fuel hf _ => by rw [advanceByStep, hf]
    · exact settles_of_both hs hs fun fuel hf _ => by rw [advanceByStep, hf]

/-! ## By skips -/

theorem crosses_slice (xs : Array α) (n i : Nat) (hi : i ≤ xs.size) (w : W) :
    Crosses (slice xs i) n w
      (if n ≤ xs.size - i then (.ok true, slice xs (i + n), w)
        else (.ok false, slice xs xs.size, w)) := by
  induction n generalizing i with
  | zero => exact .here
  | succ n ih =>
    by_cases hlt : i < xs.size
    · have ha : xs[i]? = some xs[i] := Array.getElem?_eq_getElem hlt
      have ht : (slice xs i).tick w = (.yield xs[i], slice xs (i + 1), w) := by rw [tick_slice, ha]
      have hn := ih (i + 1) hlt
      rw [Nat.add_right_comm, Nat.add_assoc] at hn
      refine .yield ht ?_
      simpa only [show n ≤ xs.size - (i + 1) ↔ n + 1 ≤ xs.size - i by omega] using hn
    · obtain rfl : i = xs.size := by omega
      have ht : (slice xs xs.size).tick w = (.done, slice xs xs.size, w) := by
        rw [tick_slice, Array.getElem?_eq_none (Nat.le_refl _)]
      rw [if_neg (by omega)]
      exact .done ht

theorem Crosses.fused {b : Bool} (h : Crosses c n w (.ok b, d, v)) :
    Crosses (fused false c) n w (.ok b, .fused (!b) d, v) := by
  generalize hr : (Except.ok b, d, v) = r at h
  induction h with
  | here =>
    cases hr
    exact .here
  | silent ht _ ih => exact .silent (by simp [tick_fused, ht]) (ih hr)
  | @yield _ a _ _ _ _ _ ht _ ih => exact .yield (a := a) (by simp [tick_fused, ht]) (ih hr)
  | done ht =>
    cases hr
    exact .done (by simp [tick_fused, ht])
  | panic => cases hr

theorem crosses_of_skipBySteps {b : Bool}
    (h : skipBySteps c c.tick n w = (.finished b, d, v)) : Crosses c n w (.ok b, d, v) := by
  cases n with
  | zero =>
    cases h
    exact .here
  | succ n =>
    rcases ht : c.tick w with ⟨_ | a | _ | p, e, u⟩ <;> simp only [skipBySteps, ht] at h
    · cases h
    · split at h
      · next hn =>
        subst hn
        cases h
        exact .yield ht .here
      · cases h
    · cases h
      exact .done ht
    · cases h

/-- A skip that has finished has gone where stepping goes. -/
theorem Strides.crosses {b : Bool} (hs : c.Strides) (hb : c.InBounds)
    (h : c.skip n w = (.finished b, d, v)) : Crosses c n w (.ok b, d, v) := by
  induction c generalizing n w b v with
  | slice xs i =>
    have hc := crosses_slice xs n i hb w
    rw [skip_slice] at h
    split at h <;> cases h <;> simpa [*] using hc
  | source src ended s =>
    rw [skip_source, show src.jump = none from hs] at h
    exact crosses_of_skipBySteps h
  | fused ended c ih =>
    rw [skip_fused] at h
    cases ended with
    | true =>
      simp only [if_true] at h
      cases h
      cases n with
      | zero => exact .here
      | succ n => exact .done rfl
    | false =>
      rcases hk : c.skip n w with ⟨_ | b | _, e, u⟩ <;> simp [hk] at h
      obtain ⟨rfl, rfl, rfl⟩ := h
      exact (ih hs hb hk).fused
  | _ =>
    rw [skip_eq_skipBySteps id] at h
    exact crosses_of_skipBySteps h

theorem Strides.skip_zero (hs : c.Strides) (w : W) : c.skip 0 w = (.finished true, c, w) := by
  induction c with
  | slice xs i => rfl
  | source src ended s => rw [skip_source, show src.jump = none from hs]; rfl
  | fused ended c ih =>
    rw [skip_fused, ih hs]
    cases ended <;> rfl
  | _ => rw [skip_eq_skipBySteps id]; rfl

theorem crosses_of_advanceBy {fuel : Nat} (hs : c.Strides) (hb : c.InBounds)
    (h : c.advanceBy fuel n w = some r) : Crosses c n w r := by
  induction fuel generalizing c n w with
  | zero => cases h
  | succ fuel ih =>
    have ha := hs.agrees n w
    rw [advanceBy] at h
    rcases hk : c.skip n w with ⟨m | b | p, d, v⟩ <;> rw [hk] at h ha
    · have hd := becomes_of_skip hk
      have hr := ih (hd.strides hs) (hd.inBounds hb) h
      cases n with
      | zero => rw [hs.skip_zero] at hk; cases hk
      | succ n =>
        rcases ha with ⟨ht, rfl⟩ | ⟨a, ht, hm⟩
        · exact .silent ht hr
        · cases hm
          exact .yield ht hr
    · cases h
      exact hs.crosses hb hk
    · cases h
      obtain ⟨hn, ht⟩ := ha
      obtain ⟨m, rfl⟩ := Nat.exists_eq_add_of_lt hn
      exact .panic ht

/-- A skip that finishes or panics has met what stepping meets, so only one that goes on is open. -/
theorem Crosses.settles_of_ongoing (h : Crosses c n w r) (hs : c.Strides) (hb : c.InBounds)
    (ho : ∀ m d v, c.skip n w = (.ongoing m, d, v) → Settles (d.advanceBy · m v) r) :
    Settles (c.advanceBy · n w) r := by
  have ha := hs.agrees n w
  rcases hk : c.skip n w with ⟨m | b | p, d, v⟩ <;> rw [hk] at ha
  · exact settles_of_next (fun fuel => by rw [advanceBy, hk]) (ho m d v hk)
  · obtain rfl := h.unique (hs.crosses hb hk)
    exact settles_of_first fun fuel => by rw [advanceBy, hk]
  · obtain ⟨hn, ht⟩ := ha
    obtain ⟨m, rfl⟩ := Nat.exists_eq_add_of_lt hn
    obtain rfl := h.unique (.panic ht)
    exact settles_of_first fun fuel => by rw [advanceBy, hk]

theorem Crosses.settles_advanceBy (h : Crosses c n w r) (hs : c.Strides) (hb : c.InBounds) :
    Settles (c.advanceBy · n w) r := by
  induction h with
  | here =>
    apply Crosses.here.settles_of_ongoing hs hb
    intro m d v hk
    rw [hs.skip_zero] at hk
    cases hk
  | @silent n c d w v r ht hr ih =>
    apply (Crosses.silent ht hr).settles_of_ongoing hs hb
    intro m e u hk
    have ha := hs.agrees (n + 1) w
    have hd := becomes_of_tick ht
    rw [hk] at ha
    rcases ha with ⟨he, rfl⟩ | ⟨a, he, -⟩ <;> cases ht.symm.trans he
    exact ih (hd.strides hs) (hd.inBounds hb)
  | @yield n a c d w v r ht hr ih =>
    apply (Crosses.yield ht hr).settles_of_ongoing hs hb
    intro m e u hk
    have ha := hs.agrees (n + 1) w
    have hd := becomes_of_tick ht
    rw [hk] at ha
    rcases ha with ⟨he, -⟩ | ⟨a, he, hm⟩ <;> cases ht.symm.trans he
    cases hm
    exact ih (hd.strides hs) (hd.inBounds hb)
  | @done n c d w v ht =>
    apply (Crosses.done ht).settles_of_ongoing hs hb
    intro m e u hk
    have ha := hs.agrees (n + 1) w
    rw [hk] at ha
    rcases ha with ⟨he, -⟩ | ⟨a, he, -⟩ <;> cases ht.symm.trans he
  | @panic n p c d w v ht =>
    apply (Crosses.panic ht).settles_of_ongoing hs hb
    intro m e u hk
    have ha := hs.agrees (n + 1) w
    rw [hk] at ha
    rcases ha with ⟨he, -⟩ | ⟨a, he, -⟩ <;> cases ht.symm.trans he

/-- Whatever is made of the answer of `advanceBy` is made of the answer of stepping. -/
theorem settles_advanceBy_bind_iff {γ : Type 1} (hs : c.Strides) (hb : c.InBounds)
    (use : Nat → Except Panic Bool × Cursor W α × W → Option γ) (x : γ) :
    Settles (fun fuel => (c.advanceBy fuel n w).bind (use fuel)) x ↔
      Settles (fun fuel => (advanceByStep (step fuel) n c w).bind (use fuel)) x :=
  ⟨settles_bind_of fun _ _ h => (crosses_of_advanceBy hs hb h).settles_advanceByStep,
    settles_bind_of fun _ _ h => (crosses_of_advanceByStep h).settles_advanceBy hs hb⟩

theorem settles_advanceBy_iff (hs : c.Strides) (hb : c.InBounds) (n : Nat) (w : W)
    (r : Except Panic Bool × Cursor W α × W) :
    Settles (c.advanceBy · n w) r ↔ Settles (fun fuel => advanceByStep (step fuel) n c w) r := by
  have h := settles_advanceBy_bind_iff (n := n) (w := w) hs hb (fun _ => some) r
  simpa only [Option.bind_fun_some] using h

theorem nth_eq (fuel n : Nat) (c : Cursor W α) (w : W) :
    c.nth fuel n w = (c.advanceBy fuel n w).bind (landing (next fuel)) := by
  rw [nth]
  rcases c.advanceBy fuel n w with _ | ⟨_ | _ | _, d, v⟩ <;> rfl

theorem settles_nth_iff (hs : c.Strides) (hb : c.InBounds) (n : Nat) (w : W)
    (r : Except Panic (Option α) × Cursor W α × W) :
    Settles (c.nth · n w) r ↔ Settles (fun fuel => nthByNext (next fuel) n c w) r := by
  have hn : ∀ fuel, nthByNext (next fuel) n c w =
      (advanceByStep (step fuel) n c w).bind (landing (next fuel)) :=
    fun fuel => nthByNext_eq (fun _ _ => rfl) n c w
  simp only [nth_eq, hn]
  exact settles_advanceBy_bind_iff hs hb (fun fuel => landing (next fuel)) r

end Cursor

namespace TreeCursor

variable {ν ι : Type} {t : TreeCursor W ν}

theorem step_eq (fuel : Nat) (t : TreeCursor W ν) (w : W) :
    t.step fuel w =
      (t.settle.path.step fuel w).map fun (r, c, w) => (r, ⟨c, false, t.base⟩, w) := by
  obtain ⟨path, _ | _, base⟩ := t <;> rfl

theorem next_eq (fuel : Nat) (t : TreeCursor W ν) (w : W) :
    t.next fuel w =
      (t.settle.path.next fuel w).map fun (r, c, w) => (r, ⟨c, false, t.base⟩, w) := by
  obtain ⟨path, _ | _, base⟩ := t <;> rfl

/-- From the first step on, which a pending prune acts on, a traversal goes as its open streams. -/
theorem advanceByStep_succ (fuel n : Nat) (t : TreeCursor W ν) (w : W) :
    advanceByStep (step fuel) (n + 1) t w =
      (advanceByStep (Cursor.step fuel) (n + 1) t.settle.path w).map
        fun (r, c, w) => (r, ⟨c, false, t.base⟩, w) := by
  rw [advanceByStep, advanceByStep, step_eq]
  rcases t.settle.path.step fuel w with _ | ⟨_ | _ | _, c, v⟩
  · rfl
  · rfl
  · apply advanceByStep_around (TreeCursor.mk · false t.base)
    exact fun c w => step_eq fuel ⟨c, false, t.base⟩ w
  · rfl

theorem nthByNext_eq (fuel n : Nat) (t : TreeCursor W ν) (w : W) :
    nthByNext (next fuel) n t w =
      (nthByNext (Cursor.next fuel) n t.settle.path w).map
        fun (r, c, w) => (r, ⟨c, false, t.base⟩, w) := by
  cases n with
  | zero => exact next_eq fuel t w
  | succ n =>
    rw [nthByNext, nthByNext, next_eq]
    rcases t.settle.path.next fuel w with _ | ⟨_ | _ | _, c, v⟩
    · rfl
    · rfl
    · rfl
    · apply nthByNext_around (TreeCursor.mk · false t.base)
      exact fun c w => next_eq fuel ⟨c, false, t.base⟩ w

theorem settles_advanceBy_iff (hs : t.settle.path.Strides) (hb : t.settle.path.InBounds) (n : Nat)
    (w : W) (r : Except Panic Bool × TreeCursor W ν × W) :
    Settles (t.advanceBy · n w) r ↔ Settles (fun fuel => advanceByStep (step fuel) n t w) r := by
  cases n with
  | zero => rfl
  | succ n =>
    have ha : ∀ fuel, t.advanceBy fuel (n + 1) w = (t.settle.path.advanceBy fuel (n + 1) w).map
        fun (r, c, w) => (r, ⟨c, false, t.base⟩, w) := by
      intro fuel
      obtain ⟨path, _ | _, base⟩ := t <;> rfl
    simp only [ha, advanceByStep_succ, Option.map_eq_bind]
    exact Cursor.settles_advanceBy_bind_iff hs hb _ r

theorem settles_nth_iff (hs : t.settle.path.Strides) (hb : t.settle.path.InBounds) (n : Nat)
    (w : W) (r : Except Panic (Option ν) × TreeCursor W ν × W) :
    Settles (t.nth · n w) r ↔ Settles (fun fuel => nthByNext (next fuel) n t w) r := by
  have ht : ∀ fuel, t.nth fuel n w = (t.settle.path.nth fuel n w).map
      fun (r, c, w) => (r, ⟨c, false, t.base⟩, w) := by
    intro fuel
    obtain ⟨path, _ | _, base⟩ := t <;> rfl
  have hn : ∀ fuel, nthByNext (Cursor.next fuel) n t.settle.path w =
      (advanceByStep (Cursor.step fuel) n t.settle.path w).bind (landing (Cursor.next fuel)) :=
    fun fuel => PullStream.nthByNext_eq (fun _ _ => rfl) n _ w
  simp only [ht, nthByNext_eq, hn, Cursor.nth_eq, Option.map_bind]
  exact Cursor.settles_advanceBy_bind_iff hs hb _ r

theorem Later.strides {u : TreeCursor W ν} (h : t.Later u) (ht : t.path.Strides) :
    u.path.Strides :=
  h.keeps (P := Cursor.Strides) Cursor.Becomes.strides Cursor.ascend_strides ht

end TreeCursor

theorem TreeStream.cursor_strides {ν ι : Type} (t : TreeStream W ν ι) {c : TreeCursor W ν}
    {w w' : W} (h : t.cursor w = (.ok c, w')) : c.path.Strides := by
  obtain ⟨p, v, hp, hc⟩ := Act.andThen_ok h
  cases hc
  exact Stream.cursor_strides t.stream trivial hp

/-- In every state that calls have brought a cursor to, `advanceBy` and stepping settle on the same
answers: with the same Boolean or panic, in the same world, and with the same cursor left behind. So
`nth` is what asking for the next element over and over comes to. A traversal of a tree does the
same, also with a prune pending. -/
theorem advancing_is_stepping (W : Type) :
    (∀ {α : Type} (s : Stream W α) (c₀ c : Cursor W α) (w w' : W), s.Strides →
      s.cursor w = (.ok c₀, w') → c₀.Later c → ∀ n v,
        (∀ r, Settles (c.advanceBy · n v) r ↔
          Settles (fun fuel => advanceByStep (Cursor.step fuel) n c v) r) ∧
        ∀ r, Settles (c.nth · n v) r ↔
          Settles (fun fuel => nthByNext (Cursor.next fuel) n c v) r) ∧
    ∀ {ν ι : Type} (t : TreeStream W ν ι) (t₀ u : TreeCursor W ν) (w w' : W),
      t.cursor w = (.ok t₀, w') → t₀.Later u → ∀ n v,
        (∀ r, Settles (u.advanceBy · n v) r ↔
          Settles (fun fuel => advanceByStep (TreeCursor.step fuel) n u v) r) ∧
        ∀ r, Settles (u.nth · n v) r ↔
          Settles (fun fuel => nthByNext (TreeCursor.next fuel) n u v) r := by
  constructor
  · intro α s c₀ c w w' hs h₀ hc n v
    have hc₀ := s.cursor_strides hs h₀
    have hcs := Cursor.keeps_of_becomes (P := Cursor.Strides) Cursor.Becomes.strides hc.becomes hc₀
    have hcb := hc.inBounds (s.cursor_inBounds h₀)
    exact ⟨Cursor.settles_advanceBy_iff hcs hcb n v, Cursor.settles_nth_iff hcs hcb n v⟩
  · intro ν ι t t₀ u w w' h₀ hu n v
    have hus := TreeCursor.settle_keeps (P := Cursor.Strides) Cursor.ascend_strides
      (hu.strides (t.cursor_strides h₀))
    have hub := TreeCursor.settle_inBounds (hu.inBounds (t.cursor_inBounds h₀))
    exact ⟨TreeCursor.settles_advanceBy_iff hus hub n v, TreeCursor.settles_nth_iff hus hub n v⟩

/-- Skips of two kinds, both cut short: one over storage that was stepped into, through a cursor
around the session, and one of a traversal with a prune pending. -/
theorem advancing_is_stepping_short :
    Settles ((Cursor.fused false (.slice #[10, 20, 30] 1)).advanceBy · 5 ())
        (.ok false, .fused true (.slice #[10, 20, 30] 3), ()) ∧
      ∃ u : TreeCursor (List Nat) Nat, u.pruning = true ∧
        Settles (u.advanceBy · 2 [1, 0]) (.ok false, ⟨.empty, false, 1⟩, [1, 0]) := by
  let s : Stream Unit Nat := .reopen (.items #[10, 20, 30])
  have hc : (Cursor.fused false (.slice #[10, 20, 30] 0) : Cursor Unit Nat).Later
      (.fused false (.slice #[10, 20, 30] 1)) := by
    have h₁ : (Cursor.fused false (.slice #[10, 20, 30] 0)).step 1 () =
        some (.ok (.yield 10), .fused false (.slice #[10, 20, 30] 1), ()) := rfl
    exact .step .same h₁
  have ht : succession.cursor [] = (.ok ⟨.descend succession.visit succession.book
      (.slice #[1] 0), false, 1⟩, [0]) := rfl
  have hn : TreeCursor.step 1 ⟨.descend succession.visit succession.book (.slice #[1] 0), false, 1⟩
      [0] = some (.ok (.yield 1), ⟨.dive succession.visit succession.book 1 (.slice #[2] 0)
        (.descend succession.visit succession.book (.slice #[1] 1)), false, 1⟩, [1, 0]) := rfl
  constructor
  · have h := (advancing_is_stepping Unit).1 s _ _ () () trivial rfl hc 5 ()
    exact (h.1 _).mpr (settles_of_first fun _ => rfl)
  · have h := (advancing_is_stepping (List Nat)).2 succession _ _ [] [0] ht
      (.prune (.step .same hn)) 2 [1, 0]
    exact ⟨_, rfl, (h.1 _).mpr (settles_of_first fun _ => rfl)⟩

end PullStream
